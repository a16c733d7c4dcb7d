import Mathlib.Data.Int.Basic
import Mathlib.Tactic.Common

/-!
# Decimal texts of integers

`padded width v` is the text of `v` with zeros between its sign and its digits, so that it has at
least `width` characters; a width of 0 gives the plain text. `parse` takes an optional sign and one
or more digits. Every text of a number is parsed as that number (`parse_padded`), so texts of one
width tell numbers apart (`padded_injective`).
-/

namespace PaxosPayments.Decimal

/-- The digits of a natural number, with leading zeros up to a width. -/
def digits (width n : ℕ) : List Char :=
  List.replicate (width - (Nat.toDigits 10 n).length) '0' ++ Nat.toDigits 10 n

/-- The text of an integer with at least `width` characters, the sign being one of them. -/
def padded (width : ℕ) : ℤ → List Char
  | .ofNat n => digits width n
  | .negSucc n => '-' :: digits (width - 1) (n + 1)

/-- The number that is written with these digits. -/
def natural (text : List Char) : Option ℕ :=
  if text ≠ [] ∧ text.all Char.isDigit then some (Nat.ofDigitChars 10 text 0) else none

/-- The number of a text: an optional sign, and at least one digit. -/
def parse : List Char → Option ℤ
  | '-' :: text => (natural text).map fun n => -n
  | '+' :: text => (natural text).map fun n => n
  | text => (natural text).map fun n => n

theorem toNat_of_isDigit {c : Char} (h : c.isDigit = true) : 48 ≤ c.toNat ∧ c.toNat ≤ 57 := by
  simp only [Char.isDigit, Bool.and_eq_true, decide_eq_true_eq, ge_iff_le,
    UInt32.le_iff_toNat_le] at h
  exact h

theorem digits_ne_nil (width n : ℕ) : digits width n ≠ [] := by
  intro h
  exact Nat.toDigits_ne_nil (List.append_eq_nil_iff.mp h).2

theorem le_length_digits (width n : ℕ) : width ≤ (digits width n).length := by
  rw [digits, List.length_append, List.length_replicate]
  omega

theorem isDigit_of_mem_digits {width n : ℕ} {c : Char} (h : c ∈ digits width n) :
    c.isDigit = true := by
  rcases List.mem_append.mp h with h | h
  · rw [List.eq_of_mem_replicate h]
    rfl
  · exact Nat.isDigit_of_mem_toDigits (by decide) le_rfl h

theorem natural_digits (width n : ℕ) : natural (digits width n) = some n := by
  have hall : (digits width n).all Char.isDigit = true :=
    List.all_eq_true.mpr fun c hc => isDigit_of_mem_digits hc
  rw [natural, if_pos ⟨digits_ne_nil width n, hall⟩, digits, Nat.ofDigitChars_append,
    Nat.ofDigitChars_replicate_zero, Nat.mul_zero, Nat.ofDigitChars_ten_toDigits]

section Scanning

variable {text rest : List Char} (hdigits : ∀ c ∈ text, c.isDigit = true)

include hdigits

theorem takeWhile_digits (hrest : rest.head?.all (!·.isDigit) = true) :
    (text ++ rest).takeWhile Char.isDigit = text := by
  rw [List.takeWhile_append_of_pos hdigits]
  cases rest with
  | nil => simp
  | cons c rest =>
    have hc : c.isDigit = false := by simpa using hrest
    simp [hc]

theorem dropWhile_digits (hrest : rest.head?.all (!·.isDigit) = true) :
    (text ++ rest).dropWhile Char.isDigit = rest := by
  rw [List.dropWhile_append_of_pos hdigits]
  cases rest with
  | nil => rfl
  | cons c rest => exact List.dropWhile_cons_of_neg (by simpa using hrest)

end Scanning

/-- One more digit. -/
theorem natural_append_digit {text : List Char} {n d : ℕ} (h : natural text = some n)
    (hd : d < 10) : natural (text ++ [d.digitChar]) = some (10 * n + d) := by
  have hdigit : ∀ d < 10, (d.digitChar.isDigit = true) ∧ d.digitChar.toNat - '0'.toNat = d := by
    decide
  unfold natural at h
  split_ifs at h with hall
  obtain rfl := Option.some.inj h
  have hall' : (text ++ [d.digitChar]).all Char.isDigit = true := by
    rw [List.all_append, hall.2]
    simpa using (hdigit d hd).1
  rw [natural, if_pos ⟨by simp, hall'⟩, Nat.ofDigitChars_append, Nat.ofDigitChars_cons,
    (hdigit d hd).2]
  rfl

/-- A text that begins with a digit has no sign. -/
theorem parse_of_isDigit {c : Char} {text : List Char} (h : c.isDigit = true) :
    parse (c :: text) = (natural (c :: text)).map fun n => (n : ℤ) := by
  have hminus : c ≠ '-' := by
    rintro rfl
    exact absurd h (by decide)
  have hplus : c ≠ '+' := by
    rintro rfl
    exact absurd h (by decide)
  unfold parse
  split <;> simp_all

theorem parse_padded (width : ℕ) (v : ℤ) : parse (padded width v) = some v := by
  cases v with
  | ofNat n =>
    change parse (digits width n) = some (n : ℤ)
    cases hd : digits width n with
    | nil => exact absurd hd (digits_ne_nil width n)
    | cons c text =>
      have hc : c.isDigit = true := isDigit_of_mem_digits (hd ▸ List.mem_cons_self)
      rw [parse_of_isDigit hc, ← hd, natural_digits]
      rfl
  | negSucc n =>
    rw [padded, parse, natural_digits]
    rfl

theorem padded_injective (width : ℕ) : Function.Injective (padded width) := by
  intro v w h
  have hparse := congrArg parse h
  rw [parse_padded, parse_padded] at hparse
  exact Option.some.inj hparse

/-- The first and the last character of a text are digits, or its sign. -/
theorem eq_minus_or_isDigit {width : ℕ} {v : ℤ} {c : Char} (h : c ∈ padded width v) :
    c = '-' ∨ c.isDigit = true := by
  cases v with
  | ofNat n => exact .inr (isDigit_of_mem_digits h)
  | negSucc n =>
    rcases List.mem_cons.mp h with rfl | h
    · exact .inl rfl
    · exact .inr (isDigit_of_mem_digits h)

end PaxosPayments.Decimal
