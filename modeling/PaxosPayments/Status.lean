import Mathlib.Algebra.Order.Floor.Ring
import Mathlib.Data.Rat.Floor

/-!
# Status errors

The `codes` and `status` packages of gRPC, as far as banks and gateway look at them: an error is a
code with a message. Amounts of money are exact numbers here; `fixed2` is their text under the verb
`%.2f`, which messages and ledger records use. `Double` has also the values of a float64 that are
not numbers, for the code that tells them apart.
-/

namespace PaxosPayments

/-- The status codes of gRPC. -/
inductive Code
  | ok
  | canceled
  | unknown
  | invalidArgument
  | deadlineExceeded
  | notFound
  | alreadyExists
  | permissionDenied
  | resourceExhausted
  | failedPrecondition
  | aborted
  | outOfRange
  | unimplemented
  | internal
  | unavailable
  | dataLoss
  | unauthenticated
  deriving DecidableEq, Repr

/-- A status error. A call that returns `nil` has none. -/
structure Status where
  code : Code
  message : String
  deriving DecidableEq, Repr

/-- A float64: an exact number, or one of the values that JSON has no text for. -/
inductive Double
  | finite (value : ℚ)
  | infinity (negative : Bool)
  | nan
  deriving DecidableEq

def Double.isFinite : Double → Bool
  | finite _ => true
  | infinity _ | nan => false

/-- The nearest integer; of two nearest, the even one. -/
def roundHalfEven (q : ℚ) : ℤ :=
  let floor := ⌊q⌋
  if q - floor < 1 / 2 then floor
  else if 1 / 2 < q - floor then floor + 1
  else if floor % 2 = 0 then floor
  else floor + 1

/-- The text of an amount under `%.2f`. -/
def fixed2 (q : ℚ) : String :=
  let cents := (roundHalfEven (|q| * 100)).toNat
  (if q < 0 then "-" else "") ++ Nat.repr (cents / 100) ++ "." ++
    Nat.repr (cents / 10 % 10) ++ Nat.repr (cents % 10)

example : fixed2 (-5 / 4) = "-1.25" := by decide +kernel

theorem not_mem_repr {c : Char} (hc : c.isDigit = false) (n : ℕ) : c ∉ (Nat.repr n).toList := by
  intro h
  rw [Nat.repr, String.toList_ofList] at h
  rw [Nat.isDigit_of_mem_toDigits (by omega) le_rfl h] at hc
  exact absurd hc (by decide)

/-- The text of an amount has nothing but digits, a point and a sign. -/
theorem not_mem_fixed2 {c : Char} (hdigit : c.isDigit = false) (hpoint : c ≠ '.') (hminus : c ≠ '-')
    (q : ℚ) : c ∉ (fixed2 q).toList := by
  have hrepr := not_mem_repr hdigit
  have hsign : c ∉ (if q < 0 then "-" else "").toList := by
    split_ifs <;> simp [hminus]
  simp only [fixed2, String.toList_append, List.mem_append, not_or]
  exact ⟨⟨⟨⟨hsign, hrepr _⟩, by simp [hpoint]⟩, hrepr _⟩, hrepr _⟩

theorem newline_not_mem_fixed2 (q : ℚ) : '\n' ∉ (fixed2 q).toList :=
  not_mem_fixed2 (by decide) (by decide) (by decide) q

end PaxosPayments
