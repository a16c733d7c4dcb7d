import PaxosPayments.Foundations.Decimal
import PaxosPayments.Foundations.Quoted

/-!
# The parts of a JSON text

Strings and numbers as `encoding/json` writes them, with their readers, and a scanner. `scan`
follows the strings and the braces of a text; what it says of a text goes by pieces (`scan_append`)
and does not depend on how many braces are open around it (`scan_raise`).
-/

namespace PaxosPayments.Json

open Quoted (hex)

/-! ## The scanner -/

/-- Where a text ends: outside of a string, in one, or after a backslash in one; always with the
number of open braces. -/
inductive State
  | outside (depth : ℕ)
  | inside (depth : ℕ)
  | escaped (depth : ℕ)
  deriving DecidableEq

namespace State

def next : State → Char → Option State
  | outside depth, c =>
    if c = '"' then some (inside depth)
    else if c = '{' then some (outside (depth + 1))
    else if c = '}' then if depth = 0 then none else some (outside (depth - 1))
    else if c.isDigit ∨ c ∈ [',', ':', '-', '.'] then some (outside depth)
    else none
  | inside depth, c =>
    some (if c = '"' then outside depth else if c = '\\' then escaped depth else inside depth)
  | escaped depth, _ => some (inside depth)

/-- The same place within one more pair of braces. -/
def raise : State → State
  | outside depth => outside (depth + 1)
  | inside depth => inside (depth + 1)
  | escaped depth => escaped (depth + 1)

theorem next_raise {s s' : State} {c : Char} (h : s.next c = some s') :
    s.raise.next c = some s'.raise := by
  cases s with
  | outside depth =>
    simp only [next, raise, Nat.add_one_ne_zero, if_false, Nat.add_sub_cancel] at h ⊢
    split_ifs at h ⊢ with hquote hopen hclose hzero hplain
    · obtain rfl := Option.some.inj h
      rfl
    · obtain rfl := Option.some.inj h
      rfl
    · obtain rfl := Option.some.inj h
      simp only [Nat.sub_add_cancel (Nat.pos_of_ne_zero hzero)]
    · obtain rfl := Option.some.inj h
      rfl
  | inside depth =>
    obtain rfl := Option.some.inj h
    simp only [next, raise]
    split_ifs <;> rfl
  | escaped depth =>
    obtain rfl := Option.some.inj h
    rfl

end State

def scan (s : State) (text : List Char) : Option State := text.foldlM State.next s

theorem scan_append (s : State) (text rest : List Char) :
    scan s (text ++ rest) = (scan s text).bind fun s => scan s rest :=
  List.foldlM_append

theorem scan_cons (s : State) (c : Char) (text : List Char) :
    scan s (c :: text) = (s.next c).bind fun s => scan s text :=
  List.foldlM_cons

@[simp]
theorem scan_nil (s : State) : scan s [] = some s := rfl

theorem scan_raise {s s' : State} {text : List Char} (h : scan s text = some s') :
    scan s.raise text = some s'.raise := by
  induction text generalizing s with
  | nil =>
    obtain rfl := Option.some.inj h
    rfl
  | cons c text ih =>
    rw [scan_cons] at h ⊢
    obtain ⟨s₁, hnext, hrest⟩ := Option.bind_eq_some_iff.mp h
    rw [State.next_raise hnext]
    exact ih hrest

/-- A text that the scanner passes outside of strings, it passes within braces too. -/
theorem scan_outside {text : List Char} (h : scan (.outside 0) text = some (.outside 0))
    (depth : ℕ) : scan (.outside depth) text = some (.outside depth) := by
  induction depth with
  | zero => exact h
  | succ depth ih => exact scan_raise ih

theorem scan_inside {text : List Char} (h : ∀ c ∈ text, c ≠ '"' ∧ c ≠ '\\') (depth : ℕ) :
    scan (.inside depth) text = some (.inside depth) := by
  induction text with
  | nil => rfl
  | cons c text ih =>
    obtain ⟨hquote, hback⟩ := h c List.mem_cons_self
    rw [scan_cons, State.next, if_neg hquote, if_neg hback]
    exact ih fun d hd => h d (List.mem_cons_of_mem _ hd)

theorem scan_digits {text : List Char} (h : ∀ c ∈ text, c.isDigit = true) (depth : ℕ) :
    scan (.outside depth) text = some (.outside depth) := by
  induction text with
  | nil => rfl
  | cons c text ih =>
    have hc := h c List.mem_cons_self
    have hnot : c ≠ '"' ∧ c ≠ '{' ∧ c ≠ '}' := by
      refine ⟨?_, ?_, ?_⟩ <;> rintro rfl <;> exact absurd hc (by decide)
    rw [scan_cons, State.next, if_neg hnot.1, if_neg hnot.2.1, if_neg hnot.2.2, if_pos (.inl hc)]
    exact ih fun d hd => h d (List.mem_cons_of_mem _ hd)

/-! ## Written texts -/

/-- A text of printable characters that the scanner passes as a whole. -/
structure Written (text : List Char) : Prop where
  scan : scan (.outside 0) text = some (.outside 0)
  printable : ∀ c ∈ text, 0x20 ≤ c.toNat ∧ c.toNat < 0x80

namespace Written

variable {text rest : List Char}

theorem nil : Written [] := ⟨rfl, by simp⟩

theorem singleton {c : Char} (hscan : Json.scan (.outside 0) [c] = some (.outside 0))
    (hprintable : 0x20 ≤ c.toNat ∧ c.toNat < 0x80) : Written [c] where
  scan := hscan
  printable _ hd := List.mem_singleton.mp hd ▸ hprintable

theorem append (h : Written text) (hrest : Written rest) : Written (text ++ rest) where
  scan := by rw [scan_append, h.scan, Option.bind_some, hrest.scan]
  printable c hc := (List.mem_append.mp hc).elim (h.printable c) (hrest.printable c)

theorem cons {c : Char} (h : Written [c]) (hrest : Written rest) : Written (c :: rest) :=
  h.append hrest

theorem braces (h : Written text) : Written ('{' :: (text ++ ['}'])) where
  scan := by
    rw [scan_cons]
    change Json.scan (.outside 1) _ = _
    rw [scan_append, scan_outside h.scan]
    rfl
  printable c hc := by
    rcases List.mem_cons.mp hc with rfl | hc
    · decide
    · rcases List.mem_append.mp hc with hc | hc
      · exact h.printable c hc
      · rw [List.mem_singleton.mp hc]
        decide

end Written

theorem written_colon : Written [':'] := .singleton rfl (by decide)

theorem written_comma : Written [','] := .singleton rfl (by decide)

/-! ## Strings -/

/-- The code units of a character in UTF-16. -/
def units (c : Char) : List ℕ :=
  if c.toNat < 0x10000 then [c.toNat]
  else [0xd800 + (c.toNat - 0x10000) / 0x400, 0xdc00 + (c.toNat - 0x10000) % 0x400]

/-- One code unit. Half of a pair alone is replaced. -/
def ofUnit (u : ℕ) : Char := if 0xd800 ≤ u ∧ u < 0xe000 then Char.ofNat 0xfffd else Char.ofNat u

def ofUnits : List ℕ → List Char
  | [] => []
  | [u] => [ofUnit u]
  | u :: v :: us =>
    if 0xd800 ≤ u ∧ u < 0xdc00 ∧ 0xdc00 ≤ v ∧ v < 0xe000 then
      Char.ofNat (0x10000 + (u - 0xd800) * 0x400 + (v - 0xdc00)) :: ofUnits us
    else ofUnit u :: ofUnits (v :: us)

theorem toNat_valid (c : Char) : c.toNat < 0xd800 ∨ 0xdfff < c.toNat ∧ c.toNat < 0x110000 :=
  c.valid

theorem ofUnits_units (c : Char) (us : List ℕ) : ofUnits (units c ++ us) = c :: ofUnits us := by
  have hvalid := toNat_valid c
  unfold units
  split_ifs with hsmall
  · have hunit : ofUnit c.toNat = c := by
      rw [ofUnit, if_neg (by omega), Char.ofNat_toNat]
    cases us with
    | nil => simp [ofUnits, hunit]
    | cons v us => rw [List.singleton_append, ofUnits, if_neg (by omega), hunit]
  · have hcode : 0x10000 + (0xd800 + (c.toNat - 0x10000) / 0x400 - 0xd800) * 0x400 +
        (0xdc00 + (c.toNat - 0x10000) % 0x400 - 0xdc00) = c.toNat := by omega
    rw [List.cons_append, List.singleton_append, ofUnits, if_pos (by omega), hcode,
      Char.ofNat_toNat]

theorem ofUnits_flatMap (text : List Char) : ofUnits (text.flatMap units) = text := by
  induction text with
  | nil => rfl
  | cons c text ih => rw [List.flatMap_cons, ofUnits_units, ih]

theorem lt_of_mem_units {c : Char} {u : ℕ} (h : u ∈ units c) : u < 0x10000 := by
  have hvalid := toNat_valid c
  unfold units at h
  split_ifs at h with hsmall
  · rw [List.mem_singleton] at h
    omega
  · simp only [List.mem_cons, List.not_mem_nil, or_false] at h
    omega

/-- The escapes of one letter. -/
def letterEscapes : List (ℕ × Char) :=
  [(34, '"'), (92, '\\'), (8, 'b'), (12, 'f'), (10, 'n'), (13, 'r'), (9, 't')]

/-- One code unit. The brackets and the ampersand of HTML are escaped, and so is everything that is
not ASCII, which `encoding/json` writes in UTF-8. -/
def putUnit (u : ℕ) : List Char :=
  match letterEscapes.find? (·.1 = u) with
  | some escape => ['\\', escape.2]
  | none =>
    if 0x20 ≤ u ∧ u < 0x80 ∧ u ∉ [0x26, 0x3c, 0x3e] then [Char.ofNat u]
    else '\\' :: 'u' :: hex 4 u

/-- The value of a digit in base 16. -/
def hexDigit (c : Char) : Option ℕ := (List.range 16).find? fun d => d.digitChar = c.toLower

/-- The code units up to the closing quote, and the text after it. -/
def getUnits : List Char → Option (List ℕ × List Char)
  | [] => none
  | c :: text =>
    if c = '"' then some ([], text)
    else if c = '\\' then
      match text with
      | [] => none
      | letter :: text =>
        if letter = 'u' then
          match text with
          | c₃ :: c₂ :: c₁ :: c₀ :: text => do
            let u := (((← hexDigit c₃) * 16 + (← hexDigit c₂)) * 16 + (← hexDigit c₁)) * 16 +
              (← hexDigit c₀)
            (getUnits text).map (Prod.map (List.cons u) id)
          | _ => none
        else do
          let escape ← letterEscapes.find? (·.2 = letter)
          (getUnits text).map (Prod.map (List.cons escape.1) id)
    else (getUnits text).map (Prod.map (List.cons c.toNat) id)

/-- A text between quotes. -/
def putText (text : String) : List Char :=
  '"' :: ((text.toList.flatMap units).flatMap putUnit ++ ['"'])

/-- A text whose opening quote has been read. -/
def getText (text : List Char) : Option (String × List Char) :=
  (getUnits text).map (Prod.map (fun us => String.ofList (ofUnits us)) id)

/-- The three ways to write a code unit. -/
theorem putUnit_cases (u : ℕ) :
    (∃ escape ∈ letterEscapes, escape.1 = u ∧ putUnit u = ['\\', escape.2]) ∨
      (0x20 ≤ u ∧ u < 0x80 ∧ u ≠ 34 ∧ u ≠ 92 ∧ putUnit u = [Char.ofNat u]) ∨
      putUnit u = '\\' :: 'u' :: hex 4 u := by
  unfold putUnit
  cases hfind : letterEscapes.find? (·.1 = u) with
  | some escape =>
    have hu : escape.1 = u := by simpa using List.find?_some hfind
    exact .inl ⟨escape, List.mem_of_find?_eq_some hfind, hu, rfl⟩
  | none =>
    have hne : u ≠ 34 ∧ u ≠ 92 := by
      constructor <;> rintro rfl <;> simp [letterEscapes] at hfind
    simp only
    split_ifs with hplain
    · exact .inr (.inl ⟨hplain.1, hplain.2.1, hne.1, hne.2, rfl⟩)
    · exact .inr (.inr rfl)

theorem hexDigit_digitChar : ∀ d < 16, hexDigit d.digitChar = some d := by
  decide

theorem mem_hex {width n : ℕ} {c : Char} (h : c ∈ hex width n) : ∃ d < 16, d.digitChar = c := by
  induction width generalizing n with
  | zero => simp [hex] at h
  | succ width ih =>
    rcases List.mem_append.mp h with h | h
    · exact ih h
    · exact ⟨n % 16, Nat.mod_lt _ (by decide), (List.mem_singleton.mp h).symm⟩

theorem toNat_ofNat_of_lt : ∀ u < 0x80, (Char.ofNat u).toNat = u := by
  decide

theorem ofNat_ne {u : ℕ} {c : Char} (hlt : u < 0x80) (hne : u ≠ c.toNat) : Char.ofNat u ≠ c := by
  rintro rfl
  exact hne (toNat_ofNat_of_lt u hlt).symm

theorem getUnits_putUnit {u : ℕ} (hu : u < 0x10000) (text : List Char) :
    getUnits (putUnit u ++ text) = (getUnits text).map (Prod.map (List.cons u) id) := by
  rcases putUnit_cases u with ⟨escape, hmem, rfl, hput⟩ | ⟨_, hlt, hquote, hback, hput⟩ | hput
  · rw [hput]
    simp only [letterEscapes, List.mem_cons, List.not_mem_nil, or_false] at hmem
    rcases hmem with rfl | rfl | rfl | rfl | rfl | rfl | rfl <;>
      simp [getUnits.eq_def ('\\' :: _), letterEscapes]
  · rw [hput, List.singleton_append, getUnits.eq_def]
    simp only
    rw [if_neg (ofNat_ne (c := '"') hlt hquote), if_neg (ofNat_ne (c := '\\') hlt hback),
      toNat_ofNat_of_lt u hlt]
  · rw [hput]
    have hval : ((u / 16 / 16 / 16 % 16 * 16 + u / 16 / 16 % 16) * 16 + u / 16 % 16) * 16 + u % 16 =
        u := by omega
    simp [hex, getUnits.eq_def ('\\' :: _), hexDigit_digitChar, Nat.mod_lt, hval]

theorem getUnits_flatMap {us : List ℕ} (h : ∀ u ∈ us, u < 0x10000) (text : List Char) :
    getUnits (us.flatMap putUnit ++ '"' :: text) = some (us, text) := by
  induction us with
  | nil => simp [getUnits.eq_def]
  | cons u us ih =>
    rw [List.flatMap_cons, List.append_assoc, getUnits_putUnit (h u List.mem_cons_self),
      ih fun v hv => h v (List.mem_cons_of_mem _ hv)]
    rfl

theorem getText_putText (text : String) (rest : List Char) :
    putText text ++ rest = '"' :: ((text.toList.flatMap units).flatMap putUnit ++ '"' :: rest) ∧
    getText ((text.toList.flatMap units).flatMap putUnit ++ '"' :: rest) = some (text, rest) := by
  constructor
  · simp [putText]
  · rw [getText, getUnits_flatMap]
    · simp [ofUnits_flatMap]
    · intro u hu
      obtain ⟨c, _, hc⟩ := List.mem_flatMap.mp hu
      exact lt_of_mem_units hc

theorem length_putText (text : String) : 2 ≤ (putText text).length := by
  simp [putText]

theorem scan_putUnit (u depth : ℕ) :
    scan (.inside depth) (putUnit u) = some (.inside depth) := by
  have hdigit : ∀ d < 16, d.digitChar ≠ '"' ∧ d.digitChar ≠ '\\' := by decide
  rcases putUnit_cases u with ⟨escape, _, _, hput⟩ | ⟨_, hlt, hquote, hback, hput⟩ | hput
  · rw [hput]
    rfl
  · rw [hput]
    refine scan_inside (fun c hc => ?_) depth
    rw [List.mem_singleton.mp hc]
    exact ⟨ofNat_ne (c := '"') hlt hquote, ofNat_ne (c := '\\') hlt hback⟩
  · have hhex : scan (.inside depth) (hex 4 u) = some (.inside depth) := by
      refine scan_inside (fun c hc => ?_) depth
      obtain ⟨d, hd, rfl⟩ := mem_hex hc
      exact hdigit d hd
    rw [hput]
    exact hhex

theorem scan_putText (text : String) (depth : ℕ) :
    scan (.outside depth) (putText text) = some (.outside depth) := by
  have hunits (us : List ℕ) :
      scan (.inside depth) (us.flatMap putUnit) = some (.inside depth) := by
    induction us with
    | nil => rfl
    | cons u us ih =>
      rw [List.flatMap_cons, scan_append, scan_putUnit]
      exact ih
  rw [putText, scan_cons, show State.next (.outside depth) '"' = some (.inside depth) from rfl,
    Option.bind_some, scan_append, hunits]
  rfl

theorem printable_putUnit {u : ℕ} {c : Char} (h : c ∈ putUnit u) :
    0x20 ≤ c.toNat ∧ c.toNat < 0x80 := by
  have hletter : ∀ escape ∈ letterEscapes, 0x20 ≤ escape.2.toNat ∧ escape.2.toNat < 0x80 := by
    decide
  have hdigit : ∀ d < 16, 0x20 ≤ d.digitChar.toNat ∧ d.digitChar.toNat < 0x80 := by decide
  rcases putUnit_cases u with ⟨escape, hmem, _, hput⟩ | ⟨hle, hlt, _, _, hput⟩ | hput <;>
    rw [hput] at h
  · simp only [List.mem_cons, List.not_mem_nil, or_false] at h
    rcases h with rfl | rfl
    · decide
    · exact hletter escape hmem
  · rw [List.mem_singleton.mp h, toNat_ofNat_of_lt u hlt]
    exact ⟨hle, hlt⟩
  · rw [List.mem_cons, List.mem_cons] at h
    rcases h with rfl | rfl | h
    · decide
    · decide
    · obtain ⟨d, hd, rfl⟩ := mem_hex h
      exact hdigit d hd

theorem written_putText (text : String) : Written (putText text) where
  scan := scan_putText text 0
  printable c hc := by
    rcases List.mem_cons.mp hc with rfl | hc
    · decide
    · rcases List.mem_append.mp hc with hc | hc
      · obtain ⟨u, _, hu⟩ := List.mem_flatMap.mp hc
        exact printable_putUnit hu
      · rw [List.mem_singleton.mp hc]
        decide

/-! ## Numbers -/

/-- A number with `places` digits after the point. -/
def putNumber (z : ℤ) (places : ℕ) : List Char :=
  let digits := Decimal.digits (places + 1) z.natAbs
  let whole := digits.take (digits.length - places)
  (if z < 0 then ['-'] else []) ++ whole ++
    if places = 0 then [] else '.' :: digits.drop (digits.length - places)

/-- The number without its sign: its digits, how many of them are after the point, and the rest. -/
def getDigits (text : List Char) : Option ((ℕ × ℕ) × List Char) :=
  let whole := text.takeWhile Char.isDigit
  match text.dropWhile Char.isDigit with
  | '.' :: text =>
    let places := text.takeWhile Char.isDigit
    if places = [] then none
    else (Decimal.natural (whole ++ places)).map fun n =>
      ((n, places.length), text.dropWhile Char.isDigit)
  | text => (Decimal.natural whole).map fun n => ((n, 0), text)

def getNumber (text : List Char) : Option ((ℤ × ℕ) × List Char) :=
  match text with
  | '-' :: text => (getDigits text).map fun r => ((-r.1.1, r.1.2), r.2)
  | text => (getDigits text).map fun r => ((r.1.1, r.1.2), r.2)

/-- What follows a number does not go on with it. -/
def Stops (rest : List Char) : Prop :=
  rest.head?.all (fun c => !c.isDigit && c != '.') = true

theorem Stops.digits {rest : List Char} (h : Stops rest) :
    rest.head?.all (!·.isDigit) = true := by
  cases rest with
  | nil => rfl
  | cons c rest => simp_all [Stops]

theorem getDigits_append {whole places rest : List Char} {n : ℕ}
    (hdigits : ∀ c ∈ whole ++ places, c.isDigit = true)
    (hn : Decimal.natural (whole ++ places) = some n) (hrest : Stops rest) :
    getDigits (whole ++ ((if places.length = 0 then [] else '.' :: places) ++ rest)) =
      some ((n, places.length), rest) := by
  have hwhole : ∀ c ∈ whole, c.isDigit = true := fun c hc => hdigits c (List.mem_append_left _ hc)
  have hplaces : ∀ c ∈ places, c.isDigit = true :=
    fun c hc => hdigits c (List.mem_append_right _ hc)
  unfold getDigits
  cases places with
  | nil =>
    simp only [List.length_nil, if_true, List.nil_append]
    rw [Decimal.takeWhile_digits hwhole hrest.digits, Decimal.dropWhile_digits hwhole hrest.digits]
    rw [List.append_nil] at hn
    split
    · simp [Stops] at hrest
    · simp [hn]
  | cons c places =>
    have hpoint : ('.' :: ((c :: places) ++ rest)).head?.all (!·.isDigit) = true := rfl
    simp only [List.length_cons, Nat.add_one_ne_zero, if_false, List.cons_append]
    simp only [List.cons_append] at hpoint
    rw [Decimal.takeWhile_digits hwhole hpoint, Decimal.dropWhile_digits hwhole hpoint]
    have htake := Decimal.takeWhile_digits hplaces hrest.digits
    have hdrop := Decimal.dropWhile_digits hplaces hrest.digits
    simp only [List.cons_append] at htake hdrop
    simp [htake, hdrop, hn]

theorem getNumber_of_isDigit {c : Char} (h : c.isDigit = true) (text : List Char) :
    getNumber (c :: text) =
      (getDigits (c :: text)).map fun r => (((r.1.1 : ℤ), r.1.2), r.2) := by
  have hminus : c ≠ '-' := by
    rintro rfl
    exact absurd h (by decide)
  unfold getNumber
  split <;> simp_all

theorem getNumber_putNumber (z : ℤ) (places : ℕ) {rest : List Char} (hrest : Stops rest) :
    getNumber (putNumber z places ++ rest) = some ((z, places), rest) := by
  unfold putNumber
  set digits := Decimal.digits (places + 1) z.natAbs with hdef
  have hisDigit : ∀ c ∈ digits, c.isDigit = true := fun c hc => Decimal.isDigit_of_mem_digits hc
  have hlen : places + 1 ≤ digits.length := Decimal.le_length_digits _ _
  have htext := @getDigits_append (digits.take (digits.length - places))
    (digits.drop (digits.length - places)) rest z.natAbs
    (by rwa [List.take_append_drop])
    (by rw [List.take_append_drop, hdef, Decimal.natural_digits]) hrest
  rw [List.length_drop, Nat.sub_sub_self (by omega)] at htext
  rw [List.append_assoc, List.append_assoc]
  by_cases hneg : z < 0
  · have hz : -(z.natAbs : ℤ) = z := by omega
    rw [if_pos hneg, List.singleton_append, getNumber, htext]
    simp only [Option.map_some, hz]
  · -- the first digit is not a sign
    cases hwhole : digits.take (digits.length - places) with
    | nil =>
      have := congrArg List.length hwhole
      rw [List.length_take, List.length_nil] at this
      omega
    | cons c whole =>
      have hc : c.isDigit = true :=
        hisDigit c (List.mem_of_mem_take (hwhole ▸ List.mem_cons_self))
      rw [hwhole] at htext
      rw [if_neg hneg, List.nil_append, List.cons_append, getNumber_of_isDigit hc,
        ← List.cons_append, htext]
      have hz : (z.natAbs : ℤ) = z := by omega
      simp only [Option.map_some, hz]

theorem scan_putNumber (z : ℤ) (places depth : ℕ) :
    scan (.outside depth) (putNumber z places) = some (.outside depth) := by
  have hisDigit : ∀ c ∈ Decimal.digits (places + 1) z.natAbs, c.isDigit = true :=
    fun c hc => Decimal.isDigit_of_mem_digits hc
  unfold putNumber
  rw [scan_append, scan_append]
  have hsign : scan (.outside depth) (if z < 0 then ['-'] else []) = some (.outside depth) := by
    split_ifs <;> rfl
  rw [hsign, Option.bind_some, scan_digits fun c hc => hisDigit c (List.mem_of_mem_take hc),
    Option.bind_some]
  split_ifs
  · rfl
  · exact scan_digits (fun c hc => hisDigit c (List.mem_of_mem_drop hc)) depth

theorem mem_putNumber {z : ℤ} {places : ℕ} {c : Char} (h : c ∈ putNumber z places) :
    c.isDigit = true ∨ c = '-' ∨ c = '.' := by
  have hdigit {c : Char} (h : c ∈ Decimal.digits (places + 1) z.natAbs) :=
    Decimal.isDigit_of_mem_digits h
  unfold putNumber at h
  rcases List.mem_append.mp h with h | h
  · rcases List.mem_append.mp h with h | h
    · split_ifs at h <;> simp_all
    · exact .inl (hdigit (List.mem_of_mem_take h))
  · split_ifs at h
    · simp at h
    · rcases List.mem_cons.mp h with rfl | h
      · exact .inr (.inr rfl)
      · exact .inl (hdigit (List.mem_of_mem_drop h))

/-- A number begins neither as a text nor as an object. -/
theorem putNumber_cons (z : ℤ) (places : ℕ) :
    ∃ c text, putNumber z places = c :: text ∧ c ≠ '"' ∧ c ≠ '{' := by
  cases htext : putNumber z places with
  | nil =>
    have hget := @getNumber_putNumber z places [] rfl
    rw [htext] at hget
    simp [getNumber, getDigits, Decimal.natural] at hget
  | cons c text =>
    have hc := mem_putNumber (htext ▸ List.mem_cons_self : c ∈ putNumber z places)
    refine ⟨c, text, rfl, ?_, ?_⟩ <;> rintro rfl <;> exact absurd hc (by decide)

theorem written_putNumber (z : ℤ) (places : ℕ) : Written (putNumber z places) where
  scan := scan_putNumber z places 0
  printable c hc := by
    rcases mem_putNumber hc with h | rfl | rfl
    · have := Decimal.toNat_of_isDigit h
      omega
    · decide
    · decide

end PaxosPayments.Json
