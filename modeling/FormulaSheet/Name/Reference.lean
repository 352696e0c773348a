/-
A1 references.

Most sheets name their cells by column letters and row number: `A1`, `B2`, `AA100`.  Columns
count in bijective base 26 (`Z` is followed by `AA`), rows in decimal, both from one; a
reference holds them counted from zero.  Either must fit a machine word of 64 bits, so a
name such as `A99999999999999999999` is no reference.

* **`Reference.parse?`** — the reference that a name spells, letters in either case;
* **`Reference.text`** — its normal spelling;
* **`columnLetters`** — the letters of a column counted from zero.
-/
namespace FormulaSheet

/-- A cell's column and row, counted from zero. -/
structure Reference where
  column : Nat
  row : Nat
deriving Repr, DecidableEq

/-- The largest machine word. -/
def wordMax : Nat := UInt64.size - 1

/-- The value of column letters, `A` counting one. -/
def letterValue (letters : List Char) : Nat :=
  letters.foldl (fun n c => 26 * n + (c.toUpper.toNat - 'A'.toNat + 1)) 0

/-- The letters of the column with number `n`, `A` having number one. -/
def letterNumeral (n : Nat) : List Char :=
  if n = 0 then []
  else letterNumeral ((n - 1) / 26) ++ [Char.ofNat ('A'.toNat + (n - 1) % 26)]
termination_by n
decreasing_by omega

/-- The letters of a column counted from zero. -/
def columnLetters (column : Nat) : String :=
  String.ofList (letterNumeral (column + 1))

namespace Reference

/-- The reference that a name spells: letters, then digits, each a number from one up to the
largest word. -/
def parse? (name : String) : Option Reference :=
  let letters := name.toList.takeWhile Char.isAlpha
  let digits := name.toList.dropWhile Char.isAlpha
  let column := letterValue letters
  let row := Nat.ofDigitChars 10 digits 0
  if digits.all Char.isDigit ∧ 0 < column ∧ column ≤ wordMax ∧ 0 < row ∧ row ≤ wordMax then
    some ⟨column - 1, row - 1⟩
  else none

/-- What is said of a name that spells no reference. -/
def failureMessage (name : String) : String :=
  s!"Invalid cell reference: {name}"

/-- The normal spelling of a reference. -/
def text (r : Reference) : String :=
  String.ofList (letterNumeral (r.column + 1) ++ Nat.toDigits 10 (r.row + 1))

end Reference

/-- Whether a name spells a reference. -/
def isReferenceName (name : String) : Bool :=
  (Reference.parse? name).isSome

end FormulaSheet
