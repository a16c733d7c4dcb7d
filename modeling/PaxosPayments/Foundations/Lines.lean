import Mathlib.Data.List.Basic
import Mathlib.Tactic.Common

/-!
# Files of lines

A file as a sequence of characters of any kind, read line by line the way `bufio.Scanner` does: a
line ends at a newline, a carriage return before it is dropped, and what follows the last newline
counts as a line when it is not empty.

A file is `Whole` when it is empty or ends in a newline. What is appended to a whole file is read
apart from it (`scanLines_append`); this is the only case in which a record that is appended as a
line is read back as a line of its own (`scanLines_append_line`, `scanLines_append_torn`). Appended
to a file that is not whole, it is read as the rest of its last line
(`scanLines_append_torn_line`).
-/

namespace PaxosPayments

/-- The two characters that a reader of lines knows. -/
structure LineEnds (α : Type*) where
  newline : α
  carriageReturn : α

namespace LineEnds

variable {α : Type*} [DecidableEq α] (ends : LineEnds α)

/-- A trailing carriage return is not part of the line. -/
def dropCR (line : List α) : List α :=
  if line.getLast? = some ends.carriageReturn then line.dropLast else line

/-- The lines of `file` with their carriage returns, when `cur` has been read of the current line
(last character first). -/
def scan : List α → List α → List (List α)
  | cur, [] => if cur = [] then [] else [cur.reverse]
  | cur, c :: file =>
    if c = ends.newline then cur.reverse :: scan [] file else scan (c :: cur) file

/-- The lines of a file. -/
def scanLines (file : List α) : List (List α) := (ends.scan [] file).map ends.dropCR

/-- Every line is below a limit on its size: a reader with a buffer of that size can read it. -/
def Within (size : List α → ℕ) (limit : ℕ) (file : List α) : Prop :=
  ∀ line ∈ ends.scan [] file, size line < limit

instance (size : List α → ℕ) (limit : ℕ) (file : List α) :
    Decidable (ends.Within size limit file) :=
  inferInstanceAs (Decidable (∀ line ∈ _, _))

/-- The file is empty, or its last line is complete. -/
def Whole (file : List α) : Prop := file = [] ∨ file.getLast? = some ends.newline

instance (file : List α) : Decidable (ends.Whole file) := inferInstanceAs (Decidable (_ ∨ _))

/-- A text that can be a line: it has no newline and does not end in a carriage return. -/
structure Plain (line : List α) : Prop where
  newline : ends.newline ∉ line
  carriageReturn : line.getLast? ≠ some ends.carriageReturn

variable {ends} {line rest file : List α}

omit [DecidableEq α] in
theorem plain_of_not_mem (h : ends.newline ∉ line) (h' : ends.carriageReturn ∉ line) :
    ends.Plain line :=
  ⟨h, fun hlast => h' (List.mem_of_getLast? hlast)⟩

theorem dropCR_of_plain (h : ends.Plain line) : ends.dropCR line = line := by
  unfold dropCR
  rw [if_neg h.carriageReturn]

omit [DecidableEq α] in
theorem whole_append_newline (file : List α) : ends.Whole (file ++ [ends.newline]) := by
  right
  simp

theorem scan_append {cur : List α} (h : file.getLast? = some ends.newline) (rest : List α) :
    ends.scan cur (file ++ rest) = ends.scan cur file ++ ends.scan [] rest := by
  induction file generalizing cur with
  | nil => simp at h
  | cons c file ih =>
    cases file with
    | nil =>
      obtain rfl : c = ends.newline := by simpa using h
      simp [scan]
    | cons d file =>
      have h' : (d :: file).getLast? = some ends.newline := by simpa using h
      rw [List.cons_append, scan, scan]
      split_ifs
      · rw [ih h', List.cons_append]
      · rw [ih h']

/-- **What is appended to a whole file is read apart from it.** -/
theorem scanLines_append (h : ends.Whole file) (rest : List α) :
    ends.scanLines (file ++ rest) = ends.scanLines file ++ ends.scanLines rest := by
  unfold scanLines
  rcases h with rfl | h
  · simp [scan]
  · rw [scan_append h rest, List.map_append]

theorem scan_plain (cur : List α) (h : ends.newline ∉ line) (rest : List α) :
    ends.scan cur (line ++ rest) = ends.scan (line.reverse ++ cur) rest := by
  induction line generalizing cur with
  | nil => rfl
  | cons c line ih =>
    rw [List.mem_cons, not_or] at h
    rw [List.cons_append, scan, if_neg (Ne.symm h.1), ih _ h.2]
    simp

/-- A line has no newline in it. -/
theorem newline_not_mem_of_mem_scanLines (h : line ∈ ends.scanLines file) :
    ends.newline ∉ line := by
  have hscan : ∀ (file cur : List α), ends.newline ∉ cur →
      ∀ l ∈ ends.scan cur file, ends.newline ∉ l := by
    intro file
    induction file with
    | nil =>
      intro cur hcur l hl
      rw [scan] at hl
      split_ifs at hl
      · cases hl
      · obtain rfl := List.mem_singleton.mp hl
        simpa using hcur
    | cons c file ih =>
      intro cur hcur l hl
      rw [scan] at hl
      split_ifs at hl with hc
      · rcases List.mem_cons.mp hl with rfl | hl
        · simpa using hcur
        · exact ih [] (by simp) l hl
      · exact ih (c :: cur) (by simpa using ⟨Ne.symm hc, hcur⟩) l hl
  obtain ⟨l, hl, rfl⟩ := List.mem_map.mp h
  intro hmem
  refine hscan file [] (by simp) l hl ?_
  unfold dropCR at hmem
  split_ifs at hmem
  · exact List.dropLast_subset l hmem
  · exact hmem

/-- A file that begins with part of a line has a first line that begins with it. -/
theorem scanLines_of_start (hne : line ≠ []) (h : ends.Plain line) (rest : List α) :
    ∃ x lines, ends.scanLines (line ++ rest) = (line ++ x) :: lines := by
  have hscan : ∀ (rest cur : List α), cur ≠ [] →
      ∃ x lines, ends.scan cur rest = (cur.reverse ++ x) :: lines := by
    intro rest
    induction rest with
    | nil => exact fun cur hcur => ⟨[], [], by simp [scan, hcur]⟩
    | cons c rest ih =>
      intro cur hcur
      rw [scan]
      split_ifs
      · exact ⟨[], _, by rw [List.append_nil]⟩
      · obtain ⟨x, lines, hx⟩ := ih (c :: cur) (List.cons_ne_nil c cur)
        exact ⟨c :: x, lines, by simpa using hx⟩
  obtain ⟨x, lines, hx⟩ := hscan rest line.reverse (by simpa using hne)
  have hfirst : ∃ x', ends.dropCR (line ++ x) = line ++ x' := by
    unfold dropCR
    split_ifs with hlast
    · -- the carriage return is not that of the part itself
      have hxne : x ≠ [] := by
        rintro rfl
        exact h.carriageReturn (by simpa using hlast)
      exact ⟨x.dropLast, List.dropLast_append_of_ne_nil hxne⟩
    · exact ⟨x, rfl⟩
  obtain ⟨x', hx'⟩ := hfirst
  refine ⟨x', lines.map ends.dropCR, ?_⟩
  have hplain := scan_plain [] h.newline rest
  rw [List.append_nil] at hplain
  rw [scanLines, hplain, hx, List.reverse_reverse, List.map_cons, hx']

theorem scanLines_line (h : ends.Plain line) (rest : List α) :
    ends.scanLines (line ++ ends.newline :: rest) = line :: ends.scanLines rest := by
  unfold scanLines
  rw [scan_plain [] h.newline, scan, if_pos rfl]
  simp [dropCR_of_plain h]

theorem scanLines_torn (h : ends.Plain line) :
    ends.scanLines line = if line = [] then [] else [line] := by
  unfold scanLines
  have hscan := scan_plain [] h.newline []
  rw [List.append_nil, List.append_nil] at hscan
  rw [hscan, scan]
  by_cases hl : line = []
  · simp [hl]
  · simp [hl, dropCR_of_plain h]

/-- A line appended to a whole file is read as that line. -/
theorem scanLines_append_line (hw : ends.Whole file) (h : ends.Plain line) :
    ends.scanLines (file ++ (line ++ [ends.newline])) = ends.scanLines file ++ [line] := by
  rw [scanLines_append hw, scanLines_line h]
  rfl

/-- What is appended to a whole file is below the limit by itself. -/
theorem within_append {size : List α → ℕ} {limit : ℕ} (hw : ends.Whole file) :
    ends.Within size limit (file ++ rest) ↔
      ends.Within size limit file ∧ ends.Within size limit rest := by
  have hscan : ends.scan [] (file ++ rest) = ends.scan [] file ++ ends.scan [] rest := by
    rcases hw with rfl | hw
    · rfl
    · exact scan_append hw rest
  unfold Within
  rw [hscan]
  simp only [List.mem_append, or_imp, forall_and]

/-- A line appended to a whole file can be read if it is itself below the limit. -/
theorem within_append_line {size : List α → ℕ} {limit : ℕ} (hw : ends.Whole file)
    (hfile : ends.Within size limit file) (hline : ends.newline ∉ line)
    (hsize : size line < limit) :
    ends.Within size limit (file ++ (line ++ [ends.newline])) := by
  refine (within_append hw).mpr ⟨hfile, fun l hl => ?_⟩
  rw [scan_plain [] hline, scan, if_pos rfl] at hl
  obtain rfl : l = line := by simpa [scan] using hl
  exact hsize

/-- A part of a line appended to a whole file is read as a line, unless it is empty. -/
theorem scanLines_append_torn (hw : ends.Whole file) (h : ends.Plain line) :
    ends.scanLines (file ++ line) = ends.scanLines file ++ if line = [] then [] else [line] := by
  rw [scanLines_append hw, scanLines_torn h]

/-- A line appended to a torn one is read as one line with it. -/
theorem scanLines_append_torn_line {torn : List α} (hw : ends.Whole file)
    (h : ends.Plain (torn ++ line)) :
    ends.scanLines (file ++ torn ++ (line ++ [ends.newline])) =
      ends.scanLines file ++ [torn ++ line] := by
  rw [List.append_assoc, ← List.append_assoc torn]
  exact scanLines_append_line hw h

end LineEnds

end PaxosPayments
