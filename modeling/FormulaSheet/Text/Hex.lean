/-
Characters by code point.

Escapes spell a character by the hexadecimal digits of its code point, digits in either case.

* **`charOfHex?`** — the character that digits spell, if there is one.
-/
namespace FormulaSheet.Text

/-- The value of a hexadecimal digit. -/
def hexDigit? (c : Char) : Option Nat :=
  if c.isDigit then some (c.toNat - '0'.toNat)
  else if 'a' ≤ c ∧ c ≤ 'f' then some (c.toNat - 'a'.toNat + 10)
  else if 'A' ≤ c ∧ c ≤ 'F' then some (c.toNat - 'A'.toNat + 10)
  else none

/-- The character whose code point has the given digits.  No digits spell none, and neither do
the digits of a surrogate or of a number beyond the last code point. -/
def charOfHex? (digits : List Char) : Option Char := do
  let value ← digits.foldlM (fun n c => return 16 * n + (← hexDigit? c)) 0
  if !digits.isEmpty && value.isValidChar then some (Char.ofNat value) else none

end FormulaSheet.Text
