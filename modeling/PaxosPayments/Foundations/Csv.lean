import Mathlib.Data.List.Basic
import Mathlib.Tactic.Common

/-!
# Comma-separated values

Files of rows of fields, as `encoding/csv` writes and reads them with its default settings. `write`
puts a field in quotes when it has to, and doubles the quotes in it. `parse` goes through the file
character by character (`scan`) and fails on a quote where none may stand; `read` fails also when
the rows are not of one length. Lines that are empty are skipped.

A carriage return right before a newline is not read, in quotes neither (`joinEnds`). This is all
that a written file loses (`parse_write`, `read_write`): every field comes back with its line ends
joined, and a field without such a pair comes back as it was.
-/

namespace PaxosPayments.Csv

abbrev Field := List Char

abbrev Row := List Field

/-! ## Reading -/

/-- The text without the carriage returns that stand before a newline. -/
def joinEnds : List Char → List Char
  | [] => []
  | c :: text => if c = '\r' ∧ text.head? = some '\n' then joinEnds text else c :: joinEnds text

/-- What the reader sees of a file: one carriage return at its end is dropped as well. -/
def visible (file : List Char) : List Char :=
  let text := joinEnds file
  if text.getLast? = some '\r' then text.dropLast else text

/-- Where the reader is. -/
inductive Mode
  /-- At the start of a field. -/
  | start
  /-- In a field without quotes. -/
  | plain
  /-- In a field with quotes. -/
  | quoted
  /-- After a quote in a field with quotes: the second of a pair or the end of the field. -/
  | closing
  deriving DecidableEq

/-- The rows of a text, when `row` and `field` have been read of the current row and field. -/
def scan : List Char → Mode → Row → Field → Option (List Row)
  | [], mode, row, field =>
    match mode with
    | .start => if row = [] then some [] else some [row ++ [[]]]
    | .plain | .closing => some [row ++ [field]]
    | .quoted => none
  | c :: text, mode, row, field =>
    match mode with
    | .start =>
      if c = '"' then scan text .quoted row []
      else if c = ',' then scan text .start (row ++ [[]]) []
      else if c = '\n' then
        -- an empty line is no row
        if row = [] then scan text .start [] []
        else (scan text .start [] []).map ((row ++ [[]]) :: ·)
      else scan text .plain row [c]
    | .plain =>
      if c = '"' then none
      else if c = ',' then scan text .start (row ++ [field]) []
      else if c = '\n' then (scan text .start [] []).map ((row ++ [field]) :: ·)
      else scan text .plain row (field ++ [c])
    | .quoted =>
      if c = '"' then scan text .closing row field
      else scan text .quoted row (field ++ [c])
    | .closing =>
      if c = '"' then scan text .quoted row (field ++ ['"'])
      else if c = ',' then scan text .start (row ++ [field]) []
      else if c = '\n' then (scan text .start [] []).map ((row ++ [field]) :: ·)
      else none

/-- Every row has as many fields as the first. -/
def sameLength (rows : List Row) : Bool := rows.all fun row => row.length = (rows.headD []).length

/-- The rows of a file, which may be of any length, unless there is a quote where none may stand.
-/
def parse (file : List Char) : Option (List Row) := scan (visible file) .start [] []

/-- The rows of a file that must be of one length. -/
def read (file : List Char) : Option (List Row) :=
  (parse file).bind fun rows => if sameLength rows then some rows else none

/-! ## Writing -/

section write

variable (space : Char → Bool)

/-- A field is put in quotes; `space` are the characters with which no other field begins. -/
def needsQuotes (field : Field) : Bool :=
  field ≠ [] && (field = ['\\', '.'] || field.any (· ∈ [',', '"', '\r', '\n']) ||
    field.head?.any space)

/-- The field with its quotes doubled. -/
def escape (field : Field) : List Char := field.flatMap fun c => if c = '"' then ['"', '"'] else [c]

def quote (field : Field) : List Char := '"' :: (escape field ++ ['"'])

def writeField (field : Field) : List Char := if needsQuotes space field then quote field else field

def writeFields : Row → List Char
  | [] => []
  | [field] => writeField space field
  | field :: row => writeField space field ++ ',' :: writeFields row

def write (rows : List Row) : List Char := rows.flatMap fun row => writeFields space row ++ ['\n']

end write

/-! ## Line ends -/

/-- Two texts are read apart from each other if no line end is cut. -/
theorem joinEnds_append {a b : List Char} (h : a.getLast? ≠ some '\r' ∨ b.head? ≠ some '\n') :
    joinEnds (a ++ b) = joinEnds a ++ joinEnds b := by
  induction a with
  | nil => rfl
  | cons c a ih =>
    cases a with
    | nil =>
      have hc : ¬(c = '\r' ∧ b.head? = some '\n') := fun hc => by simp [hc.1, hc.2] at h
      rw [List.singleton_append, joinEnds, if_neg hc]
      simp [joinEnds]
    | cons d a =>
      have ih := ih (by simpa using h)
      rw [List.cons_append, joinEnds, joinEnds, ih]
      split_ifs <;> first | rfl | simp_all

/-- The last character is read. -/
theorem getLast?_joinEnds (text : List Char) : (joinEnds text).getLast? = text.getLast? := by
  induction text with
  | nil => rfl
  | cons c text ih =>
    rw [joinEnds]
    split_ifs with hcr
    · have hne : text ≠ [] := by
        rintro rfl
        cases hcr.2
      rw [ih, List.getLast?_cons_of_ne_nil hne]
    · rw [List.getLast?_cons, List.getLast?_cons, ih]

theorem joinEnds_eq_self {text : List Char} (h : '\r' ∉ text) : joinEnds text = text := by
  induction text with
  | nil => rfl
  | cons c text ih =>
    have hc : c ≠ '\r' := fun hc => h (hc ▸ List.mem_cons_self)
    rw [joinEnds, if_neg fun hcr => hc hcr.1, ih fun ht => h (List.mem_cons_of_mem c ht)]

theorem head?_escape {field : Field} : (escape field).head? = field.head? := by
  cases field with
  | nil => rfl
  | cons c field =>
    unfold escape
    rw [List.flatMap_cons]
    split_ifs with hc
    · rw [hc]
      rfl
    · rfl

theorem escape_cons (c : Char) (field : Field) :
    escape (c :: field) = (if c = '"' then ['"', '"'] else [c]) ++ escape field := by
  unfold escape
  rw [List.flatMap_cons]

/-- Quotes do not come between a carriage return and a newline. -/
theorem joinEnds_escape (field : Field) : joinEnds (escape field) = escape (joinEnds field) := by
  induction field with
  | nil => rfl
  | cons c field ih =>
    rw [escape_cons, joinEnds]
    by_cases hq : c = '"'
    · subst hq
      rw [if_pos rfl, if_neg fun hc => absurd hc.1 (by decide), escape_cons, if_pos rfl,
        joinEnds_append (.inl (by decide)), ih]
      rfl
    · rw [if_neg hq]
      by_cases hcr : c = '\r' ∧ field.head? = some '\n'
      · rw [if_pos hcr, List.singleton_append, joinEnds, if_pos (by rwa [head?_escape]), ih]
      · rw [if_neg hcr, List.singleton_append, joinEnds, if_neg (by rwa [head?_escape]), ih,
          escape_cons, if_neg hq]
        rfl

theorem joinEnds_quote (field : Field) : joinEnds (quote field) = quote (joinEnds field) := by
  unfold quote
  rw [joinEnds, if_neg fun hc => absurd hc.1 (by decide), joinEnds_append (.inr (by decide)),
    joinEnds_escape]
  rfl

/-! ## Round trip -/

section roundTrip

variable {space : Char → Bool} {field : Field}

theorem ne_of_needsQuotes (h : needsQuotes space field = false) {c : Char} (hc : c ∈ field) :
    c ≠ ',' ∧ c ≠ '"' ∧ c ≠ '\r' ∧ c ≠ '\n' := by
  have hne : field ≠ [] := List.ne_nil_of_mem hc
  simp only [needsQuotes, hne, ne_eq, not_false_eq_true, decide_true, Bool.true_and,
    Bool.or_eq_false_iff, List.any_eq_false, decide_eq_true_eq] at h
  simpa using h.1.2 c hc

theorem getLast?_writeField : (writeField space field).getLast? ≠ some '\r' := by
  unfold writeField
  split_ifs with hq
  · intro hlast
    rw [quote, ← List.cons_append, List.getLast?_append] at hlast
    exact absurd (Option.some.inj hlast) (by decide)
  · intro hlast
    exact (ne_of_needsQuotes (by simpa using hq) (List.mem_of_getLast? hlast)).2.2.1 rfl

theorem joinEnds_writeField : joinEnds (writeField space field) =
    if needsQuotes space field then quote (joinEnds field) else field := by
  unfold writeField
  split_ifs with hq
  · exact joinEnds_quote field
  · refine joinEnds_eq_self fun hcr => ?_
    exact (ne_of_needsQuotes (by simpa using hq) hcr).2.2.1 rfl

theorem scan_plain (hfield : ∀ c ∈ field, c ≠ ',' ∧ c ≠ '"' ∧ c ≠ '\n') (text : List Char)
    (row : Row) (read : Field) :
    scan (field ++ text) .plain row read = scan text .plain row (read ++ field) := by
  induction field generalizing read with
  | nil => simp
  | cons c field ih =>
    obtain ⟨hcomma, hquote, hnewline⟩ := hfield c List.mem_cons_self
    rw [List.cons_append, scan]
    simp only [hcomma, hquote, hnewline, if_false]
    rw [ih fun d hd => hfield d (List.mem_cons_of_mem c hd)]
    simp

theorem scan_escape (text : List Char) (row : Row) (read : Field) :
    scan (escape field ++ text) .quoted row read = scan text .quoted row (read ++ field) := by
  induction field generalizing read with
  | nil => simp [escape]
  | cons c field ih =>
    rw [escape_cons, List.append_assoc]
    split_ifs with hc
    · subst hc
      simp only [List.cons_append, List.nil_append, scan, if_true]
      rw [ih]
      simp
    · simp only [List.cons_append, List.nil_append, scan, hc, if_false]
      rw [ih]
      simp

/-- The modes in which a field may end. -/
inductive Ends (field : Field) : Mode → Prop
  | empty (h : field = []) : Ends field .start
  | plain (h : field ≠ []) : Ends field .plain
  | closing : Ends field .closing

/-- **A written field is read up to its end**, whatever follows. -/
theorem scan_writeField (space : Char → Bool) (field : Field) : ∃ mode, Ends field mode ∧
    ∀ text row, scan (joinEnds (writeField space field) ++ text) .start row [] =
      scan text mode row (joinEnds field) := by
  rw [joinEnds_writeField]
  cases hq : needsQuotes space field with
  | true =>
    refine ⟨.closing, .closing, fun text row => ?_⟩
    rw [if_pos rfl, quote, List.cons_append, scan]
    simp only [if_true]
    rw [List.append_assoc, scan_escape]
    simp [scan]
  | false =>
    have hplain : ∀ c ∈ field, c ≠ ',' ∧ c ≠ '"' ∧ c ≠ '\n' := fun c hc =>
      ⟨(ne_of_needsQuotes hq hc).1, (ne_of_needsQuotes hq hc).2.1, (ne_of_needsQuotes hq hc).2.2.2⟩
    have hjoin : joinEnds field = field :=
      joinEnds_eq_self fun hcr => (ne_of_needsQuotes hq hcr).2.2.1 rfl
    rw [hjoin]
    cases field with
    | nil => exact ⟨.start, .empty rfl, fun text row => by simp⟩
    | cons c field =>
      refine ⟨.plain, .plain (List.cons_ne_nil c field), fun text row => ?_⟩
      obtain ⟨hcomma, hquote, hnewline⟩ := hplain c List.mem_cons_self
      simp only [Bool.false_eq_true, if_false, List.cons_append, scan, hcomma, hquote, hnewline]
      rw [scan_plain fun d hd => hplain d (List.mem_cons_of_mem c hd)]
      rfl

theorem scan_comma {mode : Mode} (h : Ends field mode) (text : List Char) (row : Row) :
    scan (',' :: text) mode row (joinEnds field) =
      scan text .start (row ++ [joinEnds field]) [] := by
  cases h with
  | empty h => simp [scan, h, joinEnds]
  | plain h => simp [scan]
  | closing => simp [scan]

theorem scan_newline {mode : Mode} (h : Ends field mode) (text : List Char) {row : Row}
    (hrow : row ++ [field] ≠ [[]]) : scan ('\n' :: text) mode row (joinEnds field) =
      (scan text .start [] []).map ((row ++ [joinEnds field]) :: ·) := by
  cases h with
  | empty h =>
    subst h
    have hne : row ≠ [] := by
      rintro rfl
      exact hrow rfl
    simp [scan, hne, joinEnds]
  | plain h => simp [scan]
  | closing => simp [scan]

theorem getLast?_writeFields (fields : Row) :
    (writeFields space fields).getLast? ≠ some '\r' := by
  induction fields with
  | nil => simp [writeFields]
  | cons field fields ih =>
    cases fields with
    | nil => exact getLast?_writeField
    | cons next fields =>
      rw [writeFields, List.getLast?_append, List.getLast?_cons]
      · cases h : (writeFields space (next :: fields)).getLast? with
        | none => simp
        | some c => simpa [h] using ih
      · exact List.cons_ne_nil next fields

theorem joinEnds_writeFields_cons (field next : Field) (fields : Row) :
    joinEnds (writeFields space (field :: next :: fields)) = joinEnds (writeField space field) ++
      ',' :: joinEnds (writeFields space (next :: fields)) := by
  rw [writeFields, joinEnds_append (.inr (by simp)), joinEnds,
    if_neg fun hc => absurd hc.1 (by decide)]
  exact List.cons_ne_nil next fields

/-- A written row is read as its fields with their line ends joined. -/
theorem scan_writeFields {fields : Row} (hne : fields ≠ []) (text : List Char) {row : Row}
    (hrow : row ++ fields ≠ [[]]) :
    scan (joinEnds (writeFields space fields) ++ '\n' :: text) .start row [] =
      (scan text .start [] []).map ((row ++ fields.map joinEnds) :: ·) := by
  induction fields generalizing row with
  | nil => exact absurd rfl hne
  | cons field fields ih =>
    obtain ⟨mode, hends, hscan⟩ := scan_writeField space field
    cases fields with
    | nil =>
      rw [writeFields, hscan, scan_newline hends text hrow]
      rfl
    | cons next fields =>
      have hlong : row ++ [joinEnds field] ++ next :: fields ≠ [[]] := by
        intro h
        have hlength := congrArg List.length h
        simp only [List.length_append, List.length_cons, List.length_nil] at hlength
        omega
      rw [joinEnds_writeFields_cons, List.append_assoc, hscan, List.cons_append, scan_comma hends,
        ih (List.cons_ne_nil next fields) hlong]
      simp

theorem write_cons (row : Row) (rows : List Row) :
    write space (row :: rows) = writeFields space row ++ '\n' :: write space rows := by
  rw [write, List.flatMap_cons, List.append_assoc]
  rfl

theorem getLast?_write {rows : List Row} {c : Char} (h : (write space rows).getLast? = some c) :
    c = '\n' := by
  induction rows with
  | nil => cases h
  | cons row rows ih =>
    rw [write_cons, List.getLast?_append, List.getLast?_cons] at h
    cases hlast : (write space rows).getLast? with
    | none =>
      rw [hlast] at h
      exact (Option.some.inj h).symm
    | some d =>
      rw [hlast] at h
      exact ih (by rw [hlast]; exact h)

theorem scan_write {rows : List Row} (hrows : ∀ row ∈ rows, row ≠ [] ∧ row ≠ [[]]) :
    scan (joinEnds (write space rows)) .start [] [] = some (rows.map (·.map joinEnds)) := by
  induction rows with
  | nil => rfl
  | cons row rows ih =>
    obtain ⟨hne, hempty⟩ := hrows row List.mem_cons_self
    rw [write_cons, joinEnds_append (.inl (getLast?_writeFields row)), joinEnds,
      if_neg fun hc => absurd hc.1 (by decide), scan_writeFields hne _ (by simpa using hempty),
      ih fun row hrow => hrows row (List.mem_cons_of_mem _ hrow)]
    rfl

/-- **What a written file is read as.** -/
theorem parse_write (space : Char → Bool) {rows : List Row}
    (hrows : ∀ row ∈ rows, row ≠ [] ∧ row ≠ [[]]) :
    parse (write space rows) = some (rows.map (·.map joinEnds)) := by
  have hvisible : visible (write space rows) = joinEnds (write space rows) := by
    unfold visible
    dsimp only
    rw [getLast?_joinEnds]
    refine if_neg fun hlast => ?_
    cases getLast?_write hlast
  rw [parse, hvisible, scan_write hrows]

theorem read_write (space : Char → Bool) {rows : List Row} (hlength : sameLength rows = true)
    (hrows : ∀ row ∈ rows, row ≠ [] ∧ row ≠ [[]]) :
    read (write space rows) = some (rows.map (·.map joinEnds)) := by
  have hsame : sameLength (rows.map (·.map joinEnds)) = true := by
    cases rows with
    | nil => rfl
    | cons row rows => simpa [sameLength] using hlength
  rw [read, parse_write space hrows, Option.bind_some, if_pos hsame]

end roundTrip

end PaxosPayments.Csv
