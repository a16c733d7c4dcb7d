import PaxosPayments.Foundations.Lines
import PaxosPayments.Status
import Mathlib.Data.Finset.Insert

/-!
# The ledger file

`ledger.go`: the append-only text file of every debit and credit that a bank has applied, with the
set of their keys in memory. `record` appends the line `key,from,to,amount,operation`; `openLedger`
reads the lines back and takes the text before the first comma of each as a key.

`openLedger_record` is when a record is read back as its key: the key is `Plain`, and the accounts
have no newline in them. Nothing in the code asks for that.
-/

namespace PaxosPayments.Bank

open LineEnds

/-- The half of a transfer a bank is responsible for. -/
inductive Operation
  | debit
  | credit
  deriving DecidableEq, Repr

/-- The operation as the source writes it. -/
def Operation.text : Operation → String
  | debit => "debit"
  | credit => "credit"

/-- Newline and carriage return, as characters. -/
def charEnds : LineEnds Char := ⟨'\n', '\r'⟩

/-- `unicode.IsSpace`. -/
def isSpace (c : Char) : Bool :=
  c.toNat ∈ [0x09, 0x0a, 0x0b, 0x0c, 0x0d, 0x20, 0x85, 0xa0, 0x1680, 0x2028, 0x2029, 0x202f,
    0x205f, 0x3000] || (0x2000 ≤ c.toNat && c.toNat ≤ 0x200a)

/-- `strings.TrimSpace`. -/
def trimSpace (text : List Char) : List Char :=
  ((text.dropWhile isSpace).reverse.dropWhile isSpace).reverse

/-- `strings.Cut` at the first comma: the text before it, if there is one. -/
def cut (text : List Char) : Option String :=
  if ',' ∈ text then some (String.ofList (text.takeWhile (· ≠ ','))) else none

/-- One line of `openLedger`. -/
def keyOf (text : List Char) : Option String :=
  let line := trimSpace text
  if line = [] then none else cut line

/-- `bufio.MaxScanTokenSize`. -/
def maxScanTokenSize : ℕ := 64 * 1024

/-- The length of a text in UTF-8. -/
def byteLength (text : List Char) : ℕ := (text.map Char.utf8Size).sum

structure Ledger where
  file : List Char
  applied : Finset String
  deriving DecidableEq

/-- `openLedger` on the contents of the file. It fails on a line that is too long for the scanner.
-/
def openLedger (file : List Char) : Option Ledger :=
  if charEnds.Within byteLength maxScanTokenSize file then
    some ⟨file, ((charEnds.scanLines file).filterMap keyOf).toFinset⟩
  else none

namespace Ledger

def has (l : Ledger) (key : String) : Bool := key ∈ l.applied

/-- The line of a record, without its newline. -/
def line (key fromAccount toAccount : String) (operation : Operation) (amount : ℚ) : List Char :=
  key.toList ++ ',' :: (fromAccount.toList ++ ',' :: (toAccount.toList ++ ',' ::
    ((fixed2 amount).toList ++ ',' :: operation.text.toList)))

/-- `record`, when the write succeeds. -/
def record (l : Ledger) (key fromAccount toAccount : String) (operation : Operation)
    (amount : ℚ) : Ledger :=
  ⟨l.file ++ (line key fromAccount toAccount operation amount ++ [charEnds.newline]),
    insert key l.applied⟩

/-- A key that is found again at the start of its line: it has neither comma nor newline and does
not begin with a space. -/
def plainKey (key : String) : Bool :=
  ',' ∉ key.toList && '\n' ∉ key.toList && key.toList.head?.all (!isSpace ·)

/-- A record that is read back as its key. -/
def recordable (key fromAccount toAccount : String) (operation : Operation) (amount : ℚ) : Bool :=
  plainKey key && '\n' ∉ fromAccount.toList && '\n' ∉ toAccount.toList &&
    byteLength (line key fromAccount toAccount operation amount) < maxScanTokenSize

@[simp]
theorem record_applied (l : Ledger) (key fromAccount toAccount : String) (operation : Operation)
    (amount : ℚ) : (l.record key fromAccount toAccount operation amount).applied =
      insert key l.applied := rfl

theorem has_iff {l : Ledger} {key : String} : l.has key = true ↔ key ∈ l.applied :=
  decide_eq_true_iff

/-! ## Reading records back -/

theorem trimSpace_eq_self {text : List Char} (hhead : text.head?.all (!isSpace ·) = true)
    (hlast : text.getLast?.all (!isSpace ·) = true) : trimSpace text = text := by
  have hdrop : ∀ t : List Char, t.head?.all (!isSpace ·) = true → t.dropWhile isSpace = t := by
    intro t ht
    cases t with
    | nil => rfl
    | cons c t => rw [List.dropWhile_cons_of_neg (by simpa using ht)]
  unfold trimSpace
  rw [hdrop text hhead, hdrop text.reverse (by rwa [List.head?_reverse]), List.reverse_reverse]

variable {key fromAccount toAccount : String} {operation : Operation} {amount : ℚ}

theorem getLast?_line : (line key fromAccount toAccount operation amount).getLast? = some 't' := by
  have hop : operation.text.toList.getLast? = some 't' := by cases operation <;> decide +kernel
  have hcons : ∀ (a b : List Char) (c : Char), b.getLast? = some 't' →
      (a ++ c :: b).getLast? = some 't' := by
    intro a b c hb
    rw [List.getLast?_append, List.getLast?_cons, hb]
    rfl
  exact hcons _ _ _ (hcons _ _ _ (hcons _ _ _ (hcons _ _ _ hop)))

theorem newline_not_mem_line (h : recordable key fromAccount toAccount operation amount = true) :
    '\n' ∉ line key fromAccount toAccount operation amount := by
  simp only [recordable, plainKey, Bool.and_eq_true, decide_eq_true_eq] at h
  obtain ⟨⟨⟨⟨⟨-, hkey⟩, -⟩, hfrom⟩, hto⟩, -⟩ := h
  have hop : '\n' ∉ operation.text.toList := by cases operation <;> decide +kernel
  have hcomma : '\n' ≠ ',' := by decide
  simp only [line, List.mem_append, List.mem_cons, not_or]
  exact ⟨hkey, hcomma, hfrom, hcomma, hto, hcomma, newline_not_mem_fixed2 amount, hcomma, hop⟩

/-- A plain key is read off a line that begins with it and a comma. -/
theorem keyOf_of_plainKey (h : plainKey key = true) (rest : List Char) :
    keyOf (key.toList ++ ',' :: rest) = some key := by
  simp only [plainKey, Bool.and_eq_true, decide_eq_true_eq] at h
  obtain ⟨⟨hcomma, -⟩, hspace⟩ := h
  have hhead : (key.toList ++ ',' :: rest).dropWhile isSpace = key.toList ++ ',' :: rest := by
    cases hk : key.toList with
    | nil => exact List.dropWhile_cons_of_neg (by decide)
    | cons c k =>
      rw [hk] at hspace
      exact List.dropWhile_cons_of_neg (by simpa using hspace)
  -- trimming stops at the comma at the latest
  obtain ⟨rest', htrim⟩ : ∃ rest', trimSpace (key.toList ++ ',' :: rest) =
      key.toList ++ ',' :: rest' := by
    refine ⟨(rest.reverse.dropWhile isSpace).reverse, ?_⟩
    have hstop : (',' :: key.toList.reverse).dropWhile isSpace = ',' :: key.toList.reverse :=
      List.dropWhile_cons_of_neg (by decide)
    unfold trimSpace
    rw [hhead, List.reverse_append, List.reverse_cons, List.append_assoc, List.singleton_append,
      List.dropWhile_append, hstop]
    split_ifs with hnil
    · rw [List.isEmpty_iff.mp hnil]
      simp
    · simp
  have hmem : ',' ∈ key.toList ++ ',' :: rest' := by simp
  have htake : (key.toList ++ ',' :: rest').takeWhile (· ≠ ',') = key.toList := by
    rw [List.takeWhile_append_of_pos fun c hc => by
      simpa using ne_of_mem_of_not_mem hc hcomma]
    simp
  unfold keyOf cut
  rw [htrim, if_neg (List.ne_nil_of_mem hmem), if_pos hmem, htake, String.ofList_toList]

theorem trimSpace_sublist (text : List Char) : (trimSpace text).Sublist text := by
  have hinner := (List.dropWhile_sublist (l := (text.dropWhile isSpace).reverse) isSpace).reverse
  rw [List.reverse_reverse] at hinner
  exact hinner.trans (List.dropWhile_sublist isSpace)

/-- What is left of a text does not begin with a space. -/
theorem head?_trimSpace (text : List Char) : (trimSpace text).head?.all (!isSpace ·) = true := by
  obtain ⟨t, ht⟩ := List.dropWhile_suffix (l := (text.dropWhile isSpace).reverse) isSpace
  have hrest := congrArg List.reverse ht
  rw [List.reverse_append, List.reverse_reverse] at hrest
  have hhead := List.head?_dropWhile_not isSpace text
  cases hc : (trimSpace text).head? with
  | none => rfl
  | some c =>
    rw [← hrest, List.head?_append] at hhead
    unfold trimSpace at hc
    simpa [hc] using hhead

/-- **Only plain keys are read back.** -/
theorem plainKey_of_keyOf {text : List Char} (hn : '\n' ∉ text) (h : keyOf text = some key) :
    plainKey key = true := by
  unfold keyOf cut at h
  dsimp only at h
  split_ifs at h
  obtain rfl := Option.some.inj h
  have hsub : ((trimSpace text).takeWhile (· ≠ ',')).Sublist text :=
    (List.takeWhile_sublist _).trans (trimSpace_sublist text)
  simp only [plainKey, Bool.and_eq_true, decide_eq_true_eq, String.toList_ofList]
  refine ⟨⟨fun hcomma => ?_, fun hnewline => hn (hsub.subset hnewline)⟩, ?_⟩
  · simpa using List.all_eq_true.mp List.all_takeWhile _ hcomma
  · have hhead := head?_trimSpace text
    cases ht : trimSpace text with
    | nil => rfl
    | cons c t =>
      rw [ht] at hhead
      rw [List.takeWhile_cons]
      split_ifs
      · exact hhead
      · rfl

theorem keyOf_line (h : plainKey key = true) :
    keyOf (line key fromAccount toAccount operation amount) = some key :=
  keyOf_of_plainKey h _

/-- **A record is read back**: after it, a reopened ledger has its key besides the earlier ones. -/
theorem openLedger_record {l : Ledger} (hw : charEnds.Whole l.file)
    (hl : openLedger l.file = some l)
    (h : recordable key fromAccount toAccount operation amount = true) :
    openLedger (l.record key fromAccount toAccount operation amount).file =
      some (l.record key fromAccount toAccount operation amount) := by
  have hnewline := newline_not_mem_line h
  simp only [recordable, Bool.and_eq_true, decide_eq_true_eq] at h
  obtain ⟨⟨⟨hkey, -⟩, -⟩, hsize⟩ := h
  have hplain : charEnds.Plain (line key fromAccount toAccount operation amount) :=
    ⟨hnewline, by rw [getLast?_line]; decide⟩
  unfold openLedger at hl
  split_ifs at hl with hwithin
  have happlied := congrArg Ledger.applied (Option.some.inj hl)
  unfold openLedger record
  rw [if_pos (within_append_line hw hwithin hnewline hsize), scanLines_append_line hw hplain,
    List.filterMap_append]
  simp only [List.filterMap_cons, keyOf_line hkey, List.filterMap_nil, Option.some.injEq,
    Ledger.mk.injEq, true_and]
  rw [← happlied]
  ext k
  rw [List.mem_toFinset, List.mem_append, List.mem_singleton, Finset.mem_insert, List.mem_toFinset,
    or_comm]

theorem whole_record (l : Ledger) :
    charEnds.Whole (l.record key fromAccount toAccount operation amount).file := by
  unfold record
  rw [← List.append_assoc]
  exact whole_append_newline _

end Ledger

end PaxosPayments.Bank
