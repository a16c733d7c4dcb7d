import Mathlib.Tactic.Common

/-!
# Quoted texts

`quote` is the verb `%q` of Go's `fmt` for a text: the text between double quotes, with the escapes
of a string literal of Go for the quotes and backslashes in it and for what cannot be printed. `hex`
writes the digits of the numeric escapes.
-/

namespace PaxosPayments.Quoted

/-- The last digits of a number in base 16. -/
def hex : ℕ → ℕ → List Char
  | 0, _ => []
  | width + 1, n => hex width (n / 16) ++ [(n % 16).digitChar]

/-- The escapes of one letter, by the number of the character. -/
def letterEscapes : List (ℕ × Char) :=
  [(7, 'a'), (8, 'b'), (12, 'f'), (10, 'n'), (13, 'r'), (9, 't'), (11, 'v')]

/-- `strconv.IsPrint` up to U+00FF. The characters above are printed as they are here. -/
def isPrint (c : Char) : Bool :=
  0x20 ≤ c.toNat && c.toNat < 0x7f || 0xa1 ≤ c.toNat && c.toNat != 0xad

def escape (c : Char) : List Char :=
  if c = '"' ∨ c = '\\' then ['\\', c]
  else if isPrint c then [c]
  else
    match letterEscapes.lookup c.toNat with
    | some letter => ['\\', letter]
    | none =>
      if c.toNat < 0x80 then '\\' :: 'x' :: hex 2 c.toNat else '\\' :: 'u' :: hex 4 c.toNat

/-- The text of `%q`. -/
def quote (text : String) : String :=
  String.ofList ('"' :: (text.toList.flatMap escape ++ ['"']))

example : quote "a \"b\"\n\\\x7f" = "\"a \\\"b\\\"\\n\\\\\\x7f\"" := by decide +kernel

end PaxosPayments.Quoted
