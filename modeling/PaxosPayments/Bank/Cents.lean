import Mathlib.Tactic.Linarith
import Mathlib.Tactic.NormNum
import Mathlib.Tactic.Positivity
import Mathlib.Tactic.Ring
import PaxosPayments.Foundations.Decimal
import PaxosPayments.Status

/-!
# Amounts with two decimals

`cents q` is the number that `fixed2` writes for `q`. It is what `parseFloat` reads
(`parseFloat_fixed2`), it is a whole number of cents, and it is `q` itself exactly if `q` is one
(`cents_eq_self_iff`).
-/

namespace PaxosPayments.Bank

/-- The number that is written for an amount under `%.2f`. -/
def cents (q : ℚ) : ℚ :=
  let rounded : ℚ := roundHalfEven (|q| * 100) / 100
  if q < 0 then -rounded else rounded

/-- The amount is a whole number of cents. -/
def wholeCents (q : ℚ) : Bool := (q * 100).den = 1

theorem wholeCents_iff {q : ℚ} : wholeCents q = true ↔ ∃ k : ℤ, q * 100 = k := by
  rw [wholeCents, decide_eq_true_iff]
  constructor
  · intro h
    exact ⟨(q * 100).num, (Rat.den_eq_one_iff _).mp h |>.symm⟩
  · rintro ⟨k, hk⟩
    rw [hk, Rat.den_intCast]

theorem wholeCents_add {p q : ℚ} (hp : wholeCents p = true) :
    wholeCents (p + q) = true ↔ wholeCents q = true := by
  simp only [wholeCents_iff] at *
  obtain ⟨m, hm⟩ := hp
  constructor
  · rintro ⟨k, hk⟩
    refine ⟨k - m, ?_⟩
    push_cast
    linarith
  · rintro ⟨k, hk⟩
    refine ⟨m + k, ?_⟩
    push_cast
    linarith

theorem roundHalfEven_intCast (k : ℤ) : roundHalfEven k = k := by
  simp [roundHalfEven]

theorem roundHalfEven_nonneg {q : ℚ} (h : 0 ≤ q) : 0 ≤ roundHalfEven q := by
  have hfloor : 0 ≤ ⌊q⌋ := Int.floor_nonneg.mpr h
  unfold roundHalfEven
  dsimp only
  split_ifs <;> omega

theorem wholeCents_cents (q : ℚ) : wholeCents (cents q) = true := by
  rw [wholeCents_iff]
  unfold cents
  dsimp only
  split_ifs
  · exact ⟨-roundHalfEven (|q| * 100), by push_cast; ring⟩
  · exact ⟨roundHalfEven (|q| * 100), by ring⟩

/-- **Rounding changes an amount exactly if it is not a whole number of cents.** -/
theorem cents_eq_self_iff {q : ℚ} : cents q = q ↔ wholeCents q = true := by
  constructor
  · intro h
    rw [← h]
    exact wholeCents_cents q
  · intro h
    obtain ⟨k, hk⟩ := wholeCents_iff.mp h
    have habs : |q| * 100 = ((|k| : ℤ) : ℚ) := by
      rw [Int.cast_abs, ← hk, abs_mul, abs_of_pos (show (0 : ℚ) < 100 by norm_num)]
    unfold cents
    dsimp only
    rw [habs, roundHalfEven_intCast, ← habs]
    split_ifs with hneg
    · rw [abs_of_neg hneg]
      ring
    · rw [abs_of_nonneg (not_lt.mp hneg)]
      ring

/-! ## Reading -/

/-- Digits with at most one point among them. -/
def parseUnsigned (text : List Char) : Option ℚ :=
  let fraction := (text.dropWhile (· ≠ '.')).drop 1
  (Decimal.natural (text.takeWhile (· ≠ '.') ++ fraction)).map fun n => n / 10 ^ fraction.length

/-- `strconv.ParseFloat` on decimal notation without an exponent. Nothing else is ever in a file
that the store has written. -/
def parseFloat : List Char → Option ℚ
  | '-' :: text => (parseUnsigned text).map (-·)
  | '+' :: text => parseUnsigned text
  | text => parseUnsigned text

theorem parseUnsigned_cents (c : ℕ) :
    parseUnsigned ((Nat.repr (c / 100)).toList ++ '.' :: ((Nat.repr (c / 10 % 10)).toList ++
      (Nat.repr (c % 10)).toList)) = some ((c : ℚ) / 100) := by
  simp only [Nat.repr, String.toList_ofList]
  have hwhole : ∀ ch ∈ Nat.toDigits 10 (c / 100), (decide (ch ≠ '.')) = true := by
    intro ch hch
    have hdigit := Nat.isDigit_of_mem_toDigits (by omega) le_rfl hch
    rw [decide_eq_true_iff]
    rintro rfl
    exact absurd hdigit (by decide)
  have htens : Nat.toDigits 10 (c / 10 % 10) = [(c / 10 % 10).digitChar] :=
    Nat.toDigits_of_lt_base (Nat.mod_lt _ (by omega))
  have hones : Nat.toDigits 10 (c % 10) = [(c % 10).digitChar] :=
    Nat.toDigits_of_lt_base (Nat.mod_lt _ (by omega))
  rw [htens, hones, parseUnsigned, List.takeWhile_append_of_pos hwhole,
    List.dropWhile_append_of_pos hwhole]
  have hvalue : Decimal.natural (Nat.toDigits 10 (c / 100) ++
      [(c / 10 % 10).digitChar, (c % 10).digitChar]) = some c := by
    have hdigits : Decimal.natural (Nat.toDigits 10 (c / 100)) = some (c / 100) := by
      simpa [Decimal.digits] using Decimal.natural_digits 0 (c / 100)
    have htwo := Decimal.natural_append_digit
      (Decimal.natural_append_digit hdigits (Nat.mod_lt (c / 10) (by omega)))
      (Nat.mod_lt c (show 10 > 0 by omega))
    rw [List.append_assoc] at htwo
    refine htwo.trans (congrArg some ?_)
    omega
  simp only [ne_eq, not_true_eq_false, decide_false, List.takeWhile_cons, List.dropWhile_cons,
    Bool.false_eq_true, if_false, List.append_nil, List.drop_succ_cons, List.drop_zero,
    List.cons_append, List.nil_append]
  rw [hvalue]
  norm_num

/-- A written balance is read as the rounded one. -/
theorem parseFloat_fixed2 (q : ℚ) : parseFloat (fixed2 q).toList = some (cents q) := by
  have hnonneg : 0 ≤ roundHalfEven (|q| * 100) := roundHalfEven_nonneg (by positivity)
  have hparse := parseUnsigned_cents (roundHalfEven (|q| * 100)).toNat
  have hcast : (((roundHalfEven (|q| * 100)).toNat : ℕ) : ℚ) = roundHalfEven (|q| * 100) := by
    exact_mod_cast Int.toNat_of_nonneg hnonneg
  rw [hcast] at hparse
  unfold fixed2 cents
  dsimp only
  simp only [String.toList_append, List.append_assoc]
  generalize (roundHalfEven (|q| * 100)).toNat = c at hparse ⊢
  split_ifs with hneg
  · change (parseUnsigned _).map _ = _
    exact congrArg (Option.map (-·)) hparse
  · -- the text begins with a digit
    have hdigit : ∀ ch text, (Nat.repr (c / 100)).toList = ch :: text → ch ≠ '-' ∧ ch ≠ '+' := by
      intro ch text hch
      refine ⟨?_, ?_⟩ <;> rintro rfl <;>
        exact not_mem_repr (by decide) (c / 100) (hch ▸ List.mem_cons_self)
    cases hrepr : (Nat.repr (c / 100)).toList with
    | nil => simp [Nat.repr] at hrepr
    | cons ch text =>
      obtain ⟨hminus, hplus⟩ := hdigit ch text hrepr
      rw [hrepr] at hparse
      refine Eq.trans ?_ hparse
      change parseFloat (ch :: _) = _
      unfold parseFloat
      split <;> simp_all

end PaxosPayments.Bank
