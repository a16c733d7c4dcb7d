import PaxosPayments.Foundations.Base64
import PaxosPayments.Foundations.JsonTokens
import Mathlib.Algebra.Ring.Rat

/-!
# JSON

The part of JSON that `encoding/json` makes of structs of numbers, texts and bytes: numbers, texts,
and objects. `marshal` writes a value and `unmarshal` reads it back (`unmarshal_marshal`).

As in `encoding/json`, a text is scanned before it is read. From the scan come the two laws that a
file of such texts is recovered with: an object of which the end is missing is not read
(`unmarshal_torn`), nor is such a piece with another object behind it (`unmarshal_merged`).
-/

namespace PaxosPayments.Json

/-! ## Values -/

/-- The values that are written. A number is `z / 10 ^ places`. -/
inductive Value
  | number (z : ℤ) (places : ℕ)
  | text (text : String)
  | object (fields : List (String × Value))

mutual

def Value.put : Value → List Char
  | .number z places => putNumber z places
  | .text text => putText text
  | .object fields => '{' :: ((putFields fields).tail ++ ['}'])

/-- The fields of an object, each with a comma before it. -/
def putFields : List (String × Value) → List Char
  | [] => []
  | (name, v) :: fields => ',' :: (putText name ++ ':' :: (v.put ++ putFields fields))

end

mutual

/-- A value and the text after it. The depth of the recursion is bounded by the length of the
text. -/
def getValue : ℕ → List Char → Option (Value × List Char)
  | 0, _ => none
  | _ + 1, [] => none
  | fuel + 1, c :: text =>
    if c = '"' then (getText text).map (Prod.map .text id)
    else if c = '{' then (getFields fuel text).map (Prod.map .object id)
    else (getNumber (c :: text)).map (Prod.map (fun n => .number n.1 n.2) id)

/-- The fields of an object whose opening brace has been read. -/
def getFields : ℕ → List Char → Option (List (String × Value) × List Char)
  | 0, _ => none
  | fuel + 1, text =>
    match text with
    | '}' :: text => some ([], text)
    | text => do
      let (field, text) ← getField fuel text
      (getRest fuel text).map (Prod.map (List.cons field) id)

def getField : ℕ → List Char → Option ((String × Value) × List Char)
  | 0, _ => none
  | fuel + 1, text =>
    match text with
    | '"' :: text => do
      let (name, text) ← getText text
      match text with
      | ':' :: text => (getValue fuel text).map (Prod.map (Prod.mk name) id)
      | _ => none
    | _ => none

def getRest : ℕ → List Char → Option (List (String × Value) × List Char)
  | 0, _ => none
  | fuel + 1, text =>
    match text with
    | '}' :: text => some ([], text)
    | ',' :: text => do
      let (field, text) ← getField fuel text
      (getRest fuel text).map (Prod.map (List.cons field) id)
    | _ => none

end

theorem getField_put {name : String} {v : Value} {fuel : ℕ} {rest : List Char}
    (h : getValue fuel (v.put ++ rest) = some (v, rest)) :
    getField (fuel + 1) (putText name ++ ':' :: (v.put ++ rest)) = some ((name, v), rest) := by
  obtain ⟨hput, hget⟩ := getText_putText name (':' :: (v.put ++ rest))
  rw [hput, getField]
  simp [hget, h]

theorem stops_putFields (fields : List (String × Value)) (rest : List Char) :
    Stops (putFields fields ++ '}' :: rest) := by
  rcases fields with _ | ⟨⟨name, v⟩, fields⟩ <;> simp [putFields, Stops]

mutual

theorem getValue_put : ∀ (v : Value) (fuel : ℕ) (rest : List Char), v.put.length ≤ fuel →
    Stops rest → getValue fuel (v.put ++ rest) = some (v, rest)
  | .number z places, fuel, rest, hfuel, hrest => by
    obtain ⟨c, text, htext, hquote, hbrace⟩ := putNumber_cons z places
    have hget := getNumber_putNumber z places hrest
    rw [htext, List.cons_append] at hget
    rw [Value.put, htext, List.length_cons] at hfuel
    obtain ⟨fuel, rfl⟩ := Nat.exists_eq_add_of_le' (show 1 ≤ fuel by omega)
    rw [Value.put, htext, List.cons_append, getValue, if_neg hquote, if_neg hbrace, hget]
    rfl
  | .text text, fuel, rest, hfuel, _ => by
    obtain ⟨hput, hget⟩ := getText_putText text rest
    have hlen := length_putText text
    rw [Value.put] at hfuel
    obtain ⟨fuel, rfl⟩ := Nat.exists_eq_add_of_le' (show 1 ≤ fuel by omega)
    rw [Value.put, hput, getValue, if_pos rfl, hget]
    rfl
  | .object [], fuel, rest, hfuel, _ => by
    obtain ⟨fuel, rfl⟩ := Nat.exists_eq_add_of_le' (show 2 ≤ fuel from hfuel)
    simp [Value.put, putFields, getValue, getFields]
  | .object ((name, v) :: fields), fuel, rest, hfuel, hrest => by
    have hname := length_putText name
    simp only [Value.put, putFields, List.tail_cons, List.length_cons, List.length_append,
      List.length_nil] at hfuel
    -- the brace and the quotes of the name pay for the calls down to the first value
    obtain ⟨fuel, rfl⟩ := Nat.exists_eq_add_of_le' (show 3 ≤ fuel by omega)
    have hv := getValue_put v fuel _ (by omega) (stops_putFields fields rest)
    have hfields := getRest_putFields fields (fuel + 1) rest (by omega)
    have hfield := @getField_put name v fuel _ hv
    have htext : (Value.object ((name, v) :: fields)).put ++ rest =
        '{' :: (putText name ++ ':' :: (v.put ++ (putFields fields ++ '}' :: rest))) := by
      simp [Value.put, putFields]
    rw [htext, getValue, if_neg (by decide), if_pos rfl, getFields]
    · simp [hfield, hfields]
    · intro text heq
      simp [putText] at heq

theorem getRest_putFields : ∀ (fields : List (String × Value)) (fuel : ℕ) (rest : List Char),
    (putFields fields).length < fuel →
      getRest fuel (putFields fields ++ '}' :: rest) = some (fields, rest)
  | [], fuel, rest, hfuel => by
    obtain ⟨fuel, rfl⟩ := Nat.exists_eq_add_of_le' (show 1 ≤ fuel from hfuel)
    simp [putFields, getRest]
  | (name, v) :: fields, fuel, rest, hfuel => by
    have hname := length_putText name
    simp only [putFields, List.length_cons, List.length_append] at hfuel
    obtain ⟨fuel, rfl⟩ := Nat.exists_eq_add_of_le' (show 2 ≤ fuel by omega)
    have hv := getValue_put v fuel _ (by omega) (stops_putFields fields rest)
    have hfields := getRest_putFields fields (fuel + 1) rest (by omega)
    have hfield := @getField_put name v fuel _ hv
    have htext : putFields ((name, v) :: fields) ++ '}' :: rest =
        ',' :: (putText name ++ ':' :: (v.put ++ (putFields fields ++ '}' :: rest))) := by
      simp [putFields]
    rw [htext, getRest]
    simp [hfield, hfields]

end

theorem written_tail {fields : List (String × Value)} (h : Written (putFields fields)) :
    Written (putFields fields).tail := by
  cases fields with
  | nil => exact h
  | cons field fields =>
    rw [putFields] at h ⊢
    exact ⟨h.scan, fun c hc => h.printable c (List.mem_cons_of_mem _ hc)⟩

mutual

theorem written_put : ∀ v : Value, Written v.put
  | .number z places => by
    rw [Value.put]
    exact written_putNumber z places
  | .text text => by
    rw [Value.put]
    exact written_putText text
  | .object fields => by
    rw [Value.put]
    exact (written_tail (written_putFields fields)).braces

theorem written_putFields : ∀ fields : List (String × Value), Written (putFields fields)
  | [] => .nil
  | (name, v) :: fields => by
    rw [putFields]
    exact written_comma.cons ((written_putText name).append
      (written_colon.cons ((written_put v).append (written_putFields fields))))

end

/-! ## Bytes -/

def toBytes (text : List Char) : List UInt8 := text.map fun c => UInt8.ofNat c.toNat

def ofBytes (bytes : List UInt8) : List Char := bytes.map fun b => Char.ofNat b.toNat

def marshal (v : Value) : List UInt8 := toBytes v.put

def unmarshal (bytes : List UInt8) : Option Value :=
  let text := ofBytes bytes
  if scan (.outside 0) text = some (.outside 0) then
    match getValue text.length text with
    | some (v, []) => some v
    | _ => none
  else none

theorem toNat_toByte {c : Char} (h : c.toNat < 0x80) : (UInt8.ofNat c.toNat).toNat = c.toNat := by
  rw [UInt8.toNat_ofNat']
  omega

theorem ofBytes_toBytes {text : List Char} (h : Written text) : ofBytes (toBytes text) = text := by
  unfold ofBytes toBytes
  rw [List.map_map]
  conv_rhs => rw [← List.map_id text]
  refine List.map_congr_left fun c hc => ?_
  change Char.ofNat (UInt8.ofNat c.toNat).toNat = c
  rw [toNat_toByte (h.printable c hc).2, Char.ofNat_toNat]

theorem ofBytes_marshal (v : Value) : ofBytes (marshal v) = v.put :=
  ofBytes_toBytes (written_put v)

theorem unmarshal_marshal (v : Value) : unmarshal (marshal v) = some v := by
  have hget := getValue_put v v.put.length [] le_rfl rfl
  rw [List.append_nil] at hget
  rw [unmarshal, ofBytes_marshal, if_pos (written_put v).scan, hget]

/-- A value is written on one line. -/
theorem le_of_mem_marshal {v : Value} {b : UInt8} (h : b ∈ marshal v) : 0x20 ≤ b.toNat := by
  obtain ⟨c, hc, rfl⟩ := List.mem_map.mp h
  have hprintable := (written_put v).printable c hc
  rw [toNat_toByte hprintable.2]
  exact hprintable.1

/-! ## Objects that are cut off -/

/-- Within the braces of an object there is at least one brace open. -/
theorem scan_part {text part : List Char} (h : Written text) (hpart : part <+: text) :
    ∃ s : State, scan (.outside 0) ('{' :: part) = some s.raise := by
  obtain ⟨rest, rfl⟩ := hpart
  have hscan := h.scan
  rw [scan_append] at hscan
  obtain ⟨s, hs, -⟩ := Option.bind_eq_some_iff.mp hscan
  exact ⟨s, scan_raise hs⟩

/-- A part of an object is nothing, the whole, or ends within its braces. -/
theorem part_cases {fields : List (String × Value)} {p : List UInt8}
    (hp : p <+: marshal (.object fields)) :
    p = [] ∨ p = marshal (.object fields) ∨
      ∃ s : State, scan (.outside 0) (ofBytes p) = some s.raise := by
  by_cases hwhole : p = marshal (.object fields)
  · exact .inr (.inl hwhole)
  have htext : ofBytes p <+: '{' :: ((putFields fields).tail ++ ['}']) := by
    have hmap : ofBytes p <+: ofBytes (marshal (.object fields)) := hp.map _
    rwa [ofBytes_marshal, Value.put] at hmap
  cases p with
  | nil => exact .inl rfl
  | cons b p =>
    obtain ⟨hhead, htail⟩ := List.cons_prefix_cons.mp htext
    rcases List.prefix_concat_iff.mp htail with heq | hpart
    · -- then nothing is missing
      exfalso
      refine hwhole (hp.eq_of_length ?_)
      have hlen := congrArg List.length heq
      simp only [List.length_map, List.length_append, List.length_singleton] at hlen
      simp [marshal, toBytes, Value.put, hlen]
    · obtain ⟨s, hs⟩ := scan_part (written_tail (written_putFields fields)) hpart
      refine .inr (.inr ⟨s, ?_⟩)
      rw [← hs, ← hhead]
      rfl

theorem raise_ne_outside (s : State) : s.raise ≠ .outside 0 := by
  cases s <;> simp [State.raise]

/-- **A part of an object is not read.** -/
theorem unmarshal_torn {fields : List (String × Value)} {p : List UInt8}
    (hp : p <+: marshal (.object fields)) (hne : p ≠ marshal (.object fields)) :
    unmarshal p = none := by
  rcases part_cases hp with rfl | hwhole | ⟨s, hs⟩
  · rfl
  · exact absurd hwhole hne
  · rw [unmarshal, if_neg]
    rw [hs]
    exact fun h => raise_ne_outside s (Option.some.inj h)

/-- An object whose first field has a name that begins with a character that the scanner refuses
outside of strings. -/
def Value.Named (v : Value) : Prop :=
  ∃ c text, v.put = '{' :: '"' :: c :: text ∧ ∀ depth, (State.outside depth).next c = none

/-- **Nor is a part of an object with another object behind it**: in a string the second object
closes it and goes on with a name, and within braces it leaves them open. -/
theorem unmarshal_merged {fields : List (String × Value)} {v : Value} {p : List UInt8}
    (hp : p <+: marshal (.object fields)) (hne : p ≠ []) (hv : v.Named) :
    unmarshal (p ++ marshal v) = none := by
  obtain ⟨c, text, hput, hnext⟩ := hv
  have hbytes : ofBytes (p ++ marshal v) = ofBytes p ++ v.put := by
    rw [ofBytes, List.map_append]
    exact congrArg _ (ofBytes_marshal v)
  rw [unmarshal, hbytes]
  rcases part_cases hp with rfl | rfl | ⟨s, hs⟩
  · exact absurd rfl hne
  · have hstops : Stops v.put := by
      rw [hput]
      rfl
    have hget := getValue_put (.object fields) ((Value.object fields).put ++ v.put).length v.put
      (by simp) hstops
    rw [ofBytes_marshal, hget, hput]
    simp
  · have houtside (depth : ℕ) : scan (.outside depth) (c :: text) = none := by
      rw [scan_cons, hnext]
      rfl
    rw [if_neg]
    rw [scan_append, hs, Option.bind_some]
    cases s with
    | outside depth =>
      rw [State.raise, scan_outside (written_put v).scan]
      simp
    | inside depth =>
      -- the quote of the name ends the string
      have hnone : scan (.inside (depth + 1)) v.put = none := by
        rw [hput]
        exact houtside (depth + 1)
      simp [State.raise, hnone]
    | escaped depth =>
      have hnone : scan (.escaped (depth + 1)) v.put = none := by
        rw [hput]
        exact houtside (depth + 1)
      simp [State.raise, hnone]

/-! ## Fields of a struct -/

namespace Value

/-- The field of a struct, or its zero value where the object has none of that name. -/
def read {α : Type*} (v : Value) (name : String) (get : Value → Option α) (zero : α) : Option α :=
  match v with
  | .object fields => (fields.lookup name).elim (some zero) get
  | _ => none

/-- The field of a struct with `omitempty`: it is left out when it has its zero value. -/
def omitEmpty {α : Type*} [DecidableEq α] (name : String) (put : α → Value) (zero a : α) :
    List (String × Value) :=
  if a = zero then [] else [(name, put a)]

def asInt : Value → Option ℤ
  | .number z 0 => some z
  | _ => none

def asNat : Value → Option ℕ
  | .number (.ofNat n) 0 => some n
  | _ => none

def asText : Value → Option String
  | .text t => some t
  | _ => none

/-- The bytes of a text in base64. -/
def asBytes (v : Value) : Option (List UInt8) :=
  v.asText.bind fun t => Base64.decode t.toList

def base64 (bytes : List UInt8) : Value := .text (String.ofList (Base64.encode bytes))

/-- A rational number with all its digits. One with infinitely many, which no `float64` has, is
written as a fraction. -/
def ofRat (q : ℚ) : Value :=
  match (List.range (q.den.log2 + 1)).find? fun places => 10 ^ places % q.den = 0 with
  | some places => .number (q.num * (10 ^ places / q.den : ℕ)) places
  | none => .object [("num", .number q.num 0), ("den", .number q.den 0)]

def asRat (v : Value) : Option ℚ :=
  match v with
  | .number z places => some (mkRat z (10 ^ places))
  | .text _ => none
  | .object _ => do
    some (mkRat (← v.read "num" asInt 0) (← v.read "den" asNat 0))

section Read

variable {α : Type*} {name other : String} {get : Value → Option α} {zero : α} {w : Value}
  {fields : List (String × Value)}

@[simp]
theorem read_cons_self : (object ((name, w) :: fields)).read name get zero = get w := by
  simp [read]

theorem read_cons_of_ne (h : name ≠ other) :
    (object ((other, w) :: fields)).read name get zero = (object fields).read name get zero := by
  have hbeq : (name == other) = false := beq_false_of_ne h
  rw [read, List.lookup_cons, hbeq]
  rfl

theorem elim_lookup_omitEmpty [DecidableEq α] {put : α → Value} {a : α}
    (hput : get (put a) = some a) :
    ((omitEmpty name put zero a).lookup name).elim (some zero) get = some a := by
  unfold omitEmpty
  split_ifs with hzero
  · rw [hzero]
    rfl
  · rw [List.lookup_cons_self]
    exact hput

theorem lookup_omitEmpty_of_ne [DecidableEq α] {put : α → Value} {a : α} (h : name ≠ other) :
    (omitEmpty other put zero a).lookup name = none := by
  have hbeq : (name == other) = false := beq_false_of_ne h
  unfold omitEmpty
  split_ifs
  · rfl
  · rw [List.lookup_cons, hbeq]
    rfl

end Read

@[simp]
theorem asInt_number (z : ℤ) : (number z 0).asInt = some z := rfl

@[simp]
theorem asNat_number (n : ℕ) : (number n 0).asNat = some n := rfl

@[simp]
theorem asText_text (t : String) : (text t).asText = some t := rfl

@[simp]
theorem asBytes_base64 (bytes : List UInt8) : (base64 bytes).asBytes = some bytes := by
  simp [base64, asBytes, Base64.decode_encode]

@[simp]
theorem asRat_ofRat (q : ℚ) : (ofRat q).asRat = some q := by
  unfold ofRat
  split
  · rename_i places hfind
    have hmod : 10 ^ places % q.den = 0 := by simpa using List.find?_some hfind
    obtain ⟨k, hk⟩ := Nat.dvd_of_mod_eq_zero hmod
    have hdiv : 10 ^ places / q.den = k := by
      rw [hk, Nat.mul_div_cancel_left k q.den_pos]
    have hne : k ≠ 0 := by
      rintro rfl
      exact (Nat.pow_pos (by decide : 0 < 10)).ne' hk
    rw [hdiv, asRat, hk]
    exact congrArg some ((Rat.mkRat_mul_right hne).trans (Rat.mkRat_self q))
  · simp [asRat, read_cons_of_ne, Rat.mkRat_self]

end Value

end PaxosPayments.Json
