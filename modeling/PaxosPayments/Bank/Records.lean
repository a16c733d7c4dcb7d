import PaxosPayments.Bank.Participant

/-!
# What a reopened ledger knows

The writer of the ledger puts the id of a transfer and the two accounts into a line as they are;
the reader takes the lines apart at newlines and takes what stands before the first comma of each.
`Ledger.recordAll` is a bank that records one half of a transfer after another.

After any sequence of records the ledger that is opened on the file is the ledger in memory exactly
if three things hold of every record (`openLedger_recordAll_iff`):

* the id has neither comma nor newline and does not begin with a space;
* none of the lines it takes up is too long for the scanner;
* the lines that a newline in an account opens (`Record.strays`) are read as keys that have been
  recorded, if they are read as keys at all.

The id `a,b` is the smallest that breaks the first (`comma_lost`): the key `a,b-debit` is forgotten
and the key `a`, which nobody recorded, is known.
-/

namespace PaxosPayments.Bank

open LineEnds Ledger

/-- The arguments of a call of `record`: one half of a transfer, with the accounts in the order of
the money's way. -/
structure Record where
  transactionID : String
  fromAccount : String
  toAccount : String
  operation : Operation
  amount : ℚ
  deriving DecidableEq

namespace Record

def key (r : Record) : String := transactionKey r.transactionID r.operation

/-- What `record` appends to the file. -/
def text (r : Record) : List Char :=
  line r.key r.fromAccount r.toAccount r.operation r.amount ++ [charEnds.newline]

/-- The keys that are read off the lines after the first. -/
def strays (r : Record) : List String := (charEnds.scanLines r.text).tail.filterMap keyOf

end Record

namespace Ledger

/-- The keys `openLedger` reads in a file. -/
def keysIn (file : List Char) : List String := (charEnds.scanLines file).filterMap keyOf

def recordAll (l : Ledger) (rs : List Record) : Ledger :=
  rs.foldl (fun l r => l.record r.key r.fromAccount r.toAccount r.operation r.amount) l

end Ledger

/-! ## One record -/

/-- The suffix of a key does not matter for how it is read. -/
theorem plainKey_transactionKey (id : String) (op : Operation) :
    plainKey (transactionKey id op) = plainKey id := by
  have hcomma : ',' ∉ ("-" ++ op.text).toList := by cases op <;> decide +kernel
  have hnewline : '\n' ∉ ("-" ++ op.text).toList := by cases op <;> decide +kernel
  have hspace : ("-" ++ op.text).toList.head?.all (!isSpace ·) = true := by
    cases op <;> decide +kernel
  unfold plainKey transactionKey
  rw [String.append_assoc, String.toList_append]
  generalize ("-" ++ op.text).toList = suffix at *
  cases id.toList with
  | nil => simp [hcomma, hnewline, hspace]
  | cons c id => simp [hcomma, hnewline]

namespace Record

variable {r : Record}

theorem whole_append_text (r : Record) (file : List Char) : charEnds.Whole (file ++ r.text) := by
  unfold text
  rw [← List.append_assoc]
  exact whole_append_newline _

/-- A record with a plain key is read as its key and as whatever its accounts add. -/
theorem keysIn_text (h : plainKey r.transactionID = true) :
    keysIn r.text = r.key :: r.strays := by
  have hkey : plainKey r.key = true := by rwa [key, plainKey_transactionKey]
  have hplain : charEnds.Plain (r.key.toList ++ [',']) := by
    refine ⟨?_, by simp [charEnds]⟩
    simp only [plainKey, Bool.and_eq_true, decide_eq_true_eq] at hkey
    simpa [charEnds] using hkey.1.2
  obtain ⟨rest, htext⟩ : ∃ rest, r.text = (r.key.toList ++ [',']) ++ rest := by
    unfold text line
    exact ⟨_, by rw [List.append_assoc, List.append_assoc]; rfl⟩
  obtain ⟨x, lines, hx⟩ := scanLines_of_start (by simp) hplain rest
  have hfirst : keyOf (r.key.toList ++ [','] ++ x) = some r.key := by
    rw [List.append_assoc]
    exact keyOf_of_plainKey hkey x
  unfold strays keysIn
  rw [htext, hx, List.filterMap_cons, hfirst, List.tail_cons]

end Record

/-! ## A sequence of records -/

namespace Ledger

variable {l : Ledger} {file : List Char}

/-- Every key that is read back is plain. -/
theorem plainKey_of_mem_keysIn {k : String} (h : k ∈ keysIn file) : plainKey k = true := by
  obtain ⟨text, htext, hk⟩ := List.mem_filterMap.mp h
  exact plainKey_of_keyOf (newline_not_mem_of_mem_scanLines htext) hk

theorem openLedger_eq_some_iff : openLedger file = some l ↔
    l.file = file ∧ charEnds.Within byteLength maxScanTokenSize file ∧
      ∀ k, k ∈ l.applied ↔ k ∈ keysIn file := by
  obtain ⟨f, applied⟩ := l
  unfold openLedger keysIn
  split_ifs with hwithin
  · simp only [Option.some.injEq, Ledger.mk.injEq, Finset.ext_iff, List.mem_toFinset]
    constructor
    · rintro ⟨hf, hk⟩
      exact ⟨hf.symm, hwithin, fun k => (hk k).symm⟩
    · rintro ⟨hf, -, hk⟩
      exact ⟨hf.symm, fun k => (hk k).symm⟩
  · simp [hwithin]

theorem recordAll_file (l : Ledger) (rs : List Record) :
    (l.recordAll rs).file = l.file ++ rs.flatMap Record.text := by
  induction rs generalizing l with
  | nil => simp [recordAll]
  | cons r rs ih =>
    refine (ih _).trans ?_
    rw [List.flatMap_cons, ← List.append_assoc]
    rfl

theorem mem_recordAll (l : Ledger) (rs : List Record) (k : String) :
    k ∈ (l.recordAll rs).applied ↔ k ∈ l.applied ∨ ∃ r ∈ rs, r.key = k := by
  induction rs generalizing l with
  | nil => simp [recordAll]
  | cons r rs ih =>
    refine (ih _).trans ?_
    rw [record_applied, Finset.mem_insert]
    simp only [List.mem_cons, exists_eq_or_imp]
    tauto

/-- What is read in the file after a sequence of records, line by line. -/
theorem keysIn_recordAll (hw : charEnds.Whole file) (rs : List Record) (k : String) :
    k ∈ keysIn (file ++ rs.flatMap Record.text) ↔
      k ∈ keysIn file ∨ ∃ r ∈ rs, k ∈ keysIn r.text := by
  induction rs generalizing file with
  | nil => simp
  | cons r rs ih =>
    have hsplit : keysIn (file ++ r.text) = keysIn file ++ keysIn r.text := by
      unfold keysIn
      rw [scanLines_append hw, List.filterMap_append]
    rw [List.flatMap_cons, ← List.append_assoc, ih (r.whole_append_text file), hsplit]
    simp only [List.mem_append, List.mem_cons, exists_eq_or_imp, or_assoc]

theorem within_recordAll {size : List Char → ℕ} {limit : ℕ} (hw : charEnds.Whole file)
    (rs : List Record) :
    charEnds.Within size limit (file ++ rs.flatMap Record.text) ↔
      charEnds.Within size limit file ∧ ∀ r ∈ rs, charEnds.Within size limit r.text := by
  induction rs generalizing file with
  | nil => simp
  | cons r rs ih =>
    rw [List.flatMap_cons, ← List.append_assoc, ih (r.whole_append_text file), within_append hw,
      List.forall_mem_cons, and_assoc]

/-- **When a ledger reloads what it recorded.** -/
theorem openLedger_recordAll_iff (hw : charEnds.Whole l.file) (hl : openLedger l.file = some l)
    (rs : List Record) :
    openLedger (l.recordAll rs).file = some (l.recordAll rs) ↔
      ∀ r ∈ rs, plainKey r.transactionID = true ∧
        charEnds.Within byteLength maxScanTokenSize r.text ∧
        ∀ k ∈ r.strays, (l.recordAll rs).has k = true := by
  obtain ⟨-, hwithin, happlied⟩ := openLedger_eq_some_iff.mp hl
  rw [openLedger_eq_some_iff, recordAll_file, within_recordAll hw]
  simp only [keysIn_recordAll hw, has_iff, mem_recordAll, happlied, true_and, hwithin]
  constructor
  · rintro ⟨hsize, hkeys⟩ r hr
    have hplain : plainKey r.transactionID = true := by
      rw [← plainKey_transactionKey _ r.operation]
      rcases (hkeys r.key).mp (.inr ⟨r, hr, rfl⟩) with h | ⟨r', -, h⟩ <;>
        exact plainKey_of_mem_keysIn h
    refine ⟨hplain, hsize r hr, fun k hk => (hkeys k).mpr (.inr ⟨r, hr, ?_⟩)⟩
    rw [Record.keysIn_text hplain]
    exact List.mem_cons_of_mem _ hk
  · intro h
    refine ⟨fun r hr => (h r hr).2.1, fun k => ⟨?_, ?_⟩⟩
    · rintro (hk | ⟨r, hr, rfl⟩)
      · exact .inl hk
      · refine .inr ⟨r, hr, ?_⟩
        rw [Record.keysIn_text (h r hr).1]
        exact List.mem_cons_self
    · rintro (hk | ⟨r, hr, hk⟩)
      · exact .inl hk
      · rw [Record.keysIn_text (h r hr).1] at hk
        rcases List.mem_cons.mp hk with rfl | hk
        · exact .inr ⟨r, hr, rfl⟩
        · exact (h r hr).2.2 k hk

/-- Two halves of a transfer, the second with a newline in an account: the line it opens is read
as the key of the first. -/
theorem openLedger_recordAll_two :
    let l : Ledger := ⟨[], ∅⟩
    let rs : List Record := [⟨"TXN-1", "ann", "bob", .debit, 5⟩,
      ⟨"TXN-1", "ann", "bob\nTXN-1-debit", .credit, 5⟩]
    openLedger (l.recordAll rs).file = some (l.recordAll rs) := by
  refine (openLedger_recordAll_iff (.inl rfl) (by decide) _).mpr ?_
  decide +kernel

/-- A key with a comma is forgotten, and a key that was never recorded is known. -/
theorem comma_lost :
    let l := (Ledger.mk [] ∅).recordAll [⟨"a,b", "ann", "bob", .debit, 5⟩]
    l.applied = {"a,b-debit"} ∧ (openLedger l.file).map Ledger.applied = some {"a"} := by
  decide +kernel

end Ledger

end PaxosPayments.Bank
