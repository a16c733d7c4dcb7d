import Mathlib.Tactic.Common

/-!
# Base64

The standard encoding of bytes as text, three bytes in four characters, with the padding. It is how
`encoding/json` writes bytes. `decode` reads every encoding back (`decode_encode`).
-/

namespace PaxosPayments.Base64

def alphabet : List Char :=
  "ABCDEFGHIJKLMNOPQRSTUVWXYZabcdefghijklmnopqrstuvwxyz0123456789+/".toList

/-- The character for a number below 64. -/
def digit (n : ℕ) : Char := alphabet.getD n '='

def value (c : Char) : Option ℕ := alphabet.idxOf? c

def encode : List UInt8 → List Char
  | [] => []
  | [a] => [digit (a.toNat / 4), digit (a.toNat % 4 * 16), '=', '=']
  | [a, b] =>
    [digit (a.toNat / 4), digit (a.toNat % 4 * 16 + b.toNat / 16), digit (b.toNat % 16 * 4), '=']
  | a :: b :: c :: bytes =>
    digit (a.toNat / 4) :: digit (a.toNat % 4 * 16 + b.toNat / 16) ::
      digit (b.toNat % 16 * 4 + c.toNat / 64) :: digit (c.toNat % 64) :: encode bytes

def decode : List Char → Option (List UInt8)
  | [] => some []
  | c₃ :: c₂ :: c₁ :: c₀ :: text => do
    let v₃ ← value c₃
    let v₂ ← value c₂
    let first := UInt8.ofNat (v₃ * 4 + v₂ / 16)
    if c₁ = '=' ∧ c₀ = '=' ∧ text = [] then some [first]
    else do
      let v₁ ← value c₁
      let second := UInt8.ofNat (v₂ * 16 + v₁ / 4)
      if c₀ = '=' ∧ text = [] then some [first, second]
      else do
        let v₀ ← value c₀
        (decode text).map ([first, second, UInt8.ofNat (v₁ * 64 + v₀)] ++ ·)
  | _ => none

theorem value_digit : ∀ n < 64, value (digit n) = some n := by
  decide +kernel

theorem digit_ne_padding : ∀ n < 64, digit n ≠ '=' := by
  decide +kernel

theorem ofNat_eq {n : ℕ} {a : UInt8} (h : n % 256 = a.toNat) : UInt8.ofNat n = a := by
  rw [← UInt8.toNat_inj, UInt8.toNat_ofNat']
  exact h

theorem decode_encode (bytes : List UInt8) : decode (encode bytes) = some bytes := by
  fun_induction encode bytes with
  | case1 => rfl
  | case2 a =>
    have ha := a.toNat_lt
    have hfirst : UInt8.ofNat (a.toNat / 4 * 4 + a.toNat % 4 * 16 / 16) = a :=
      ofNat_eq (by omega)
    simp only [decode, value_digit (a.toNat / 4) (by omega),
      value_digit (a.toNat % 4 * 16) (by omega), Option.bind_eq_bind, Option.bind_some, hfirst,
      and_self, if_true]
  | case3 a b =>
    have ha := a.toNat_lt
    have hb := b.toNat_lt
    have hfirst : UInt8.ofNat (a.toNat / 4 * 4 + (a.toNat % 4 * 16 + b.toNat / 16) / 16) = a :=
      ofNat_eq (by omega)
    have hsecond : UInt8.ofNat ((a.toNat % 4 * 16 + b.toNat / 16) * 16 + b.toNat % 16 * 4 / 4) =
        b := ofNat_eq (by omega)
    simp only [decode, value_digit (a.toNat / 4) (by omega),
      value_digit (a.toNat % 4 * 16 + b.toNat / 16) (by omega),
      value_digit (b.toNat % 16 * 4) (by omega),
      digit_ne_padding (b.toNat % 16 * 4) (by omega), Option.bind_eq_bind, Option.bind_some, hfirst,
      hsecond, false_and, and_self, if_true, if_false]
  | case4 a b c bytes ih =>
    have ha := a.toNat_lt
    have hb := b.toNat_lt
    have hc := c.toNat_lt
    have hfirst : UInt8.ofNat (a.toNat / 4 * 4 + (a.toNat % 4 * 16 + b.toNat / 16) / 16) = a :=
      ofNat_eq (by omega)
    have hsecond : UInt8.ofNat ((a.toNat % 4 * 16 + b.toNat / 16) * 16 +
        (b.toNat % 16 * 4 + c.toNat / 64) / 4) = b := ofNat_eq (by omega)
    have hthird : UInt8.ofNat ((b.toNat % 16 * 4 + c.toNat / 64) * 64 + c.toNat % 64) = c :=
      ofNat_eq (by omega)
    simp only [decode, value_digit (a.toNat / 4) (by omega),
      value_digit (a.toNat % 4 * 16 + b.toNat / 16) (by omega),
      value_digit (b.toNat % 16 * 4 + c.toNat / 64) (by omega),
      value_digit (c.toNat % 64) (by omega),
      digit_ne_padding (b.toNat % 16 * 4 + c.toNat / 64) (by omega),
      digit_ne_padding (c.toNat % 64) (by omega), Option.bind_eq_bind, Option.bind_some, hfirst,
      hsecond, hthird, false_and, if_false, ih]
    rfl

example : String.ofList (encode [77, 97, 110, 77]) = "TWFuTQ==" := by decide +kernel

end PaxosPayments.Base64
