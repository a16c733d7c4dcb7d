import PaxosPayments.Foundations.Decimal
import PaxosPayments.Foundations.Runs
import PaxosPayments.Bank.Ledger

/-!
# The transaction id server

`transaction_id_server/main.go`: a counter that hands out transaction ids and keeps its next value
in a file. `issue` writes the value after the one it hands out before it returns; `openCounter`
reads the value back when the server is started.

The file is replaced by truncating it and writing it anew, so a write that does not end well leaves
the first characters of the new text. They are digits too, and `openCounter` takes them for a
smaller number (`issued_twice`). No id is handed out twice as long as that does not happen and the
counter has not come to the end of its 64 bits (`issued_once`): what the file holds, if it can be
read at all, is then never below the next value of a running server (`Server.Ahead`).
-/

namespace PaxosPayments.TransactionId

/-- The id of a number: `TXN-%06d`. -/
def txnID (next : Int64) : String := String.ofList ("TXN-".toList ++ Decimal.padded 6 next.toInt)

/-- `strconv.FormatInt` in base 10. -/
def formatInt (v : Int64) : List Char := Decimal.padded 0 v.toInt

/-- `strconv.ParseInt` in base 10 for 64 bits. -/
def parseInt (text : List Char) : Option Int64 :=
  (Decimal.parse text).bind fun v =>
    if -2 ^ 63 ≤ v ∧ v < 2 ^ 63 then some (Int64.ofInt v) else none

/-- The value that `openCounter` takes from the contents of the file. -/
def readValue (data : List Char) : Option Int64 := parseInt (Bank.trimSpace data)

/-- How a call of `os.WriteFile` ends. One that does not end well may not have truncated the file
yet, or it leaves so many characters of the new text. -/
inductive Write
  | done
  /-- It returns an error. -/
  | failed (left : Option ℕ)
  /-- The process dies in it. -/
  | died (left : Option ℕ)
  deriving DecidableEq

/-- The file after the write of a text. -/
def Write.file (old : Option (List Char)) (text : List Char) : Write → Option (List Char)
  | done => some text
  | failed left | died left => left.elim old fun n => some (text.take n)

structure Server where
  file : Option (List Char)
  /-- The next value of the counter, while the server runs. -/
  next : Option Int64
  /-- The ids that calls of `issue` have returned, the newest first. -/
  issued : List String
  deriving DecidableEq

namespace Server

/-- A server that has not been started yet. -/
def init (file : Option (List Char)) : Server := ⟨file, none, []⟩

/-- `openCounter`, which may fail to read the file, and writes it when there is none. -/
def openCounter (s : Server) (readable : Bool) (w : Write) : Server :=
  if readable then
    match s.file with
    | none =>
      { s with file := w.file none (formatInt 1), next := if w = .done then some 1 else none }
    | some data => { s with next := readValue data }
  else s

/-- `issue`, when the next value is `next`. -/
def issue (s : Server) (next : Int64) (w : Write) : Server :=
  let file := w.file s.file (formatInt (next + 1))
  match w with
  | .done => ⟨file, some (next + 1), txnID next :: s.issued⟩
  -- the increment is taken back
  | .failed _ => { s with file := file, next := some (next + 1 - 1) }
  | .died _ => { s with file := file, next := none }

inductive Action
  | openCounter (readable : Bool) (w : Write)
  | issue (w : Write)
  /-- The process dies between two calls. -/
  | crash
  deriving DecidableEq

def step (s : Server) : Action → Option Server
  | .openCounter readable w =>
    match s.next with
    | none => some (s.openCounter readable w)
    | some _ => none
  | .issue w => s.next.map fun next => s.issue next w
  | .crash => some { s with next := none }

/-- What is left of the text of `next + 1` cannot be read, or is not read as less than `next`. -/
def harmless (next : Int64) : Write → Bool
  | .done => true
  | .failed left | .died left =>
    left.all fun n => (readValue ((formatInt (next + 1)).take n)).all (next ≤ ·)

/-- No write leaves a smaller number in the file, and the counter is not at its end. -/
def lasting (s : Server) : Action → Bool
  | .issue w => s.next.all fun next => next ≠ Int64.maxValue && harmless next w
  | .openCounter _ _ | .crash => true

end Server

/-! ## Texts and numbers -/

theorem txnID_injective {v w : Int64} (h : txnID v = txnID w) : v = w := by
  have htext : Decimal.padded 6 v.toInt = Decimal.padded 6 w.toInt :=
    List.append_cancel_left (String.ofList_injective h)
  exact Int64.toInt_inj.mp (Decimal.padded_injective 6 htext)

theorem parseInt_formatInt (v : Int64) : parseInt (formatInt v) = some v := by
  rw [parseInt, formatInt, Decimal.parse_padded, Option.bind_some,
    if_pos ⟨v.le_toInt, v.toInt_lt⟩, Int64.ofInt_toInt]

theorem not_isSpace_of_mem {c : Char} {v : Int64} (h : c ∈ formatInt v) :
    Bank.isSpace c = false := by
  rcases Decimal.eq_minus_or_isDigit h with rfl | hdigit
  · decide
  · obtain ⟨hlow, hhigh⟩ := Char.isDigit_iff_toNat.mp hdigit
    have hlow : 48 ≤ c.toNat := hlow
    have hhigh : c.toNat ≤ 57 := hhigh
    simp only [Bank.isSpace, List.mem_cons, List.not_mem_nil, or_false, Bool.or_eq_false_iff,
      decide_eq_false_iff_not, Bool.and_eq_false_iff]
    omega

/-- What the counter writes in full is read back. -/
theorem readValue_formatInt (v : Int64) : readValue (formatInt v) = some v := by
  have hclean : ∀ c : Option Char, (∀ x, c = some x → x ∈ formatInt v) →
      c.all (!Bank.isSpace ·) = true := by
    intro c hc
    cases c with
    | none => rfl
    | some x => simp [not_isSpace_of_mem (hc x rfl)]
  have htrim : Bank.trimSpace (formatInt v) = formatInt v :=
    Bank.Ledger.trimSpace_eq_self (hclean _ fun x hx => List.mem_of_head? hx)
      (hclean _ fun x hx => List.mem_of_getLast? hx)
  rw [readValue, htrim, parseInt_formatInt]

theorem lt_add_one {v : Int64} (h : v ≠ Int64.maxValue) : v < v + 1 := by
  have hmax : v.toInt ≠ 2 ^ 63 - 1 := fun heq =>
    h (Int64.toInt_inj.mp (heq.trans Int64.toInt_maxValue.symm))
  have hlt := v.toInt_lt
  have hle := v.le_toInt
  have hone : (1 : Int64).toInt = 1 := rfl
  rw [Int64.lt_iff_toInt_lt, Int64.toInt_add, hone, Int.bmod_eq_of_le (by omega) (by omega)]
  omega

/-- Ids of numbers below `v`. -/
def Below (ids : List String) (v : Int64) : Prop := ∀ id ∈ ids, ∃ w, w < v ∧ id = txnID w

namespace Below

variable {ids : List String} {v v' : Int64}

theorem mono (h : Below ids v) (hle : v ≤ v') : Below ids v' := by
  intro id hid
  obtain ⟨w, hw, rfl⟩ := h id hid
  exact ⟨w, Int64.lt_of_lt_of_le hw hle, rfl⟩

theorem not_mem (h : Below ids v) : txnID v ∉ ids := by
  intro hmem
  obtain ⟨w, hw, hid⟩ := h _ hmem
  obtain rfl := txnID_injective hid
  exact Int64.lt_irrefl hw

theorem cons (h : Below ids v) (hlt : v < v') : Below (txnID v :: ids) v' := by
  intro id hid
  rcases List.mem_cons.mp hid with rfl | hid
  · exact ⟨v, hlt, rfl⟩
  · exact h.mono (Int64.le_of_lt hlt) id hid

end Below

/-! ## What holds of every run -/

namespace Server

/-- The value in the file, if it can be read. -/
def stored (s : Server) : Option Int64 := s.file.bind readValue

/-- Neither the counter nor the file is behind what has been handed out. -/
structure Ahead (s : Server) : Prop where
  distinct : s.issued.Nodup
  next : ∀ v, s.next = some v → Below s.issued v
  stored : ∀ v, s.stored = some v → Below s.issued v
  /-- The file is not behind the counter. -/
  lasting : ∀ v w, s.next = some v → s.stored = some w → v ≤ w
  new : s.file = none → s.issued = []

namespace Ahead

variable {s s' : Server} {w : Write} {next : Int64}

theorem init (file : Option (List Char)) : Ahead (Server.init file) where
  distinct := List.nodup_nil
  next _ h := nomatch h
  stored _ _ _ hid := nomatch hid
  lasting _ _ h := nomatch h
  new _ := rfl

theorem openCounter (h : s.Ahead) (readable : Bool) : (s.openCounter readable w).Ahead := by
  cases readable with
  | false => exact h
  | true =>
    cases hfile : s.file with
    | none =>
      -- nothing has been handed out
      have hnil := h.new hfile
      have heq : s.openCounter true w =
          { s with
            file := w.file none (formatInt 1), next := if w = .done then some 1 else none } := by
        simp [Server.openCounter, hfile]
      rw [heq]
      refine ⟨h.distinct, fun v _ id hid => ?_, fun v _ id hid => ?_, ?_, fun _ => hnil⟩
      · simp [hnil] at hid
      · simp [hnil] at hid
      · intro v v' hv hv'
        dsimp only at hv
        split_ifs at hv with hdone
        subst hdone
        simp only [Server.stored, Write.file, Option.bind_some, readValue_formatInt] at hv'
        rw [← Option.some.inj hv, ← Option.some.inj hv']
        exact Int64.le_refl 1
    | some data =>
      have hstored : s.stored = readValue data := by rw [Server.stored, hfile, Option.bind_some]
      have heq : s.openCounter true w = { s with next := readValue data } := by
        simp [Server.openCounter, hfile]
      rw [heq]
      refine ⟨h.distinct, fun v hv => h.stored v (hstored.trans hv), h.stored, ?_, h.new⟩
      intro v v' hv hv'
      have hsame : some v = some v' := (hv.symm.trans hstored.symm).trans hv'
      rw [Option.some.inj hsame]
      exact Int64.le_refl v'

/-- A write that did not end well is not behind the counter either. -/
theorem stored_of_harmless (h : s.Ahead) (hnext : s.next = some next) {left : Option ℕ}
    (hleft : left.all (fun n => (readValue ((formatInt (next + 1)).take n)).all (next ≤ ·)) = true)
    {v : Int64}
    (hv : (left.elim s.file fun n => some ((formatInt (next + 1)).take n)).bind readValue =
      some v) :
    next ≤ v := by
  cases left with
  | none => exact h.lasting next v hnext hv
  | some n =>
    have hread : readValue ((formatInt (next + 1)).take n) = some v := hv
    simpa [hread] using hleft

theorem issue (h : s.Ahead) (hnext : s.next = some next) (hmax : next ≠ Int64.maxValue)
    (hw : harmless next w = true) : (s.issue next w).Ahead := by
  have hbelow := h.next next hnext
  cases w with
  | done =>
    have hlt := lt_add_one hmax
    have hstored : (s.issue next .done).stored = some (next + 1) := readValue_formatInt _
    refine ⟨List.nodup_cons.mpr ⟨hbelow.not_mem, h.distinct⟩, ?_, ?_, ?_, nofun⟩
    · intro v hv
      rw [← Option.some.inj hv]
      exact hbelow.cons hlt
    · intro v hv
      rw [← Option.some.inj (hstored.symm.trans hv)]
      exact hbelow.cons hlt
    · intro v v' hv hv'
      rw [← Option.some.inj hv, ← Option.some.inj (hstored.symm.trans hv')]
      exact Int64.le_refl (next + 1)
  | failed left =>
    have hback : next + 1 - 1 = next := Int64.add_sub_cancel next 1
    refine ⟨h.distinct, ?_, ?_, ?_, ?_⟩
    · intro v hv
      rw [← Option.some.inj hv, hback]
      exact hbelow
    · exact fun v hv => hbelow.mono (h.stored_of_harmless hnext hw hv)
    · intro v v' hv hv'
      rw [← Option.some.inj hv, hback]
      exact h.stored_of_harmless hnext hw hv'
    · intro hfile
      cases left with
      | none => exact h.new hfile
      | some n => cases hfile
  | died left =>
    refine ⟨h.distinct, nofun, ?_, nofun, ?_⟩
    · exact fun v hv => hbelow.mono (h.stored_of_harmless hnext hw hv)
    · intro hfile
      cases left with
      | none => exact h.new hfile
      | some n => cases hfile

theorem step {a : Action} (h : s.Ahead) (hok : s.lasting a = true) (hs : s.step a = some s') :
    s'.Ahead := by
  cases a with
  | openCounter readable w =>
    unfold Server.step at hs
    dsimp only at hs
    split at hs
    · obtain rfl := Option.some.inj hs
      exact h.openCounter readable
    · cases hs
  | issue w =>
    obtain ⟨next, hnext, rfl⟩ := Option.map_eq_some_iff.mp hs
    simp only [Server.lasting, hnext, Option.all_some, Bool.and_eq_true, decide_eq_true_eq] at hok
    exact h.issue hnext hok.1 hok.2
  | crash =>
    obtain rfl := Option.some.inj hs
    exact ⟨h.distinct, nofun, h.stored, nofun, h.new⟩

end Ahead

/-- **No id is handed out twice** in a run, with any number of crashes and restarts. -/
theorem issued_once {file : Option (List Char)} {as : List Action} {s : Server}
    (h : Run step lasting (init file) as s) : s.issued.Nodup :=
  (h.invariant (fun _ _ _ hI hok hs => hI.step hok hs) (Ahead.init file)).distinct

/-- A new server hands out nine ids. -/
def nineIssued : List Action := .openCounter true .done :: List.replicate 9 (.issue .done)

/-- A write of 11 leaves the file empty and fails, the next one dies having written all of it. -/
def lastingCrashes : List Action :=
  nineIssued ++ [.issue (.failed (some 0)), .issue (.died (some 2)), .openCounter true .done,
    .issue .done, .crash, .openCounter true .done, .issue .done]

theorem issued_once_crashes :
    ∃ s, Run step lasting (init none) lastingCrashes s ∧ s.issued.Nodup ∧
      s.issued.take 3 = ["TXN-000012", "TXN-000011", "TXN-000009"] := by
  obtain ⟨s, hrun, hids⟩ := Run.exists_of_exec_map step lasting (init none) lastingCrashes
    (fun s => s.issued.take 3) ["TXN-000012", "TXN-000011", "TXN-000009"] (by decide +kernel)
  exact ⟨s, hrun, issued_once hrun, hids⟩

/-- The write of 11 ends after its first digit, because the process dies or because it fails, and
the server is started again. -/
def tornWrite (w : Write) : List Action :=
  nineIssued ++ [.issue w, .crash, .openCounter true .done, .issue .done]

/-- Both times the first id is handed out again. -/
theorem issued_twice :
    (∃ s, Run step always (init none) (tornWrite (.died (some 1))) s ∧
      s.issued.head? = some "TXN-000001" ∧ ¬s.issued.Nodup) ∧
    ∃ s, Run step always (init none) (tornWrite (.failed (some 1))) s ∧
      s.issued.head? = some "TXN-000001" ∧ ¬s.issued.Nodup := by
  have hend : ∀ acts, (exec step always (init none) acts).map
        (fun s => (s.issued.head?, decide s.issued.Nodup)) = some (some "TXN-000001", false) →
      ∃ s, Run step always (init none) acts s ∧ s.issued.head? = some "TXN-000001" ∧
        ¬s.issued.Nodup := by
    intro acts h
    obtain ⟨s, hrun, hs⟩ := Run.exists_of_exec_map _ _ _ _ _ _ h
    obtain ⟨hhead, hdup⟩ := Prod.mk.inj hs
    exact ⟨s, hrun, hhead, of_decide_eq_false hdup⟩
  exact ⟨hend _ (by decide +kernel), hend _ (by decide +kernel)⟩

end Server

end PaxosPayments.TransactionId
