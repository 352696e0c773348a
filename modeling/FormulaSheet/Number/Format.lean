/-
How numbers are written.

A finite number is written with the fewest digits that read back as it.  The point stands
among the digits while the number is at least `1e-5` and below `1e15`; outside that range one
digit stands before the point and an exponent follows.  Zero is `0` whatever its sign, and a
whole number has no point.  So the canonical text of a number is also a numeral that formulas
and the sheet format read.

* **`canonicalText`** — the text of any double;
* **`displayText`** — the same, with `#NAN!` and `#INF!` for what is not a number.
-/
import FormulaSheet.Number.Shortest

namespace FormulaSheet.Number

/-- The choices of a number style that its digits do not decide. -/
structure Style where
  /-- The least power of ten of a leading digit written without an exponent. -/
  leastPositional : Int
  /-- The greatest power of ten of a leading digit written without an exponent. -/
  greatestPositional : Int
  /-- What stands between the digits and their exponent. -/
  exponentMark : Char

/-- Numbers from `1e-5` up to `1e15` are written without an exponent. -/
def sheetStyle : Style := ⟨-5, 14, 'e'⟩

namespace Decimal

/-- The power of ten of the leading digit. -/
def leadingPower (x : Decimal) : Int :=
  x.scale + ((Nat.toDigits 10 x.digits).length - 1 : Nat)

/-- The digits with the point among them, or with zeros that reach to it. -/
def positionalText (x : Decimal) : List Char :=
  let digits := Nat.toDigits 10 x.digits
  match x.scale with
  | .ofNat zeros => digits ++ List.replicate zeros '0'
  | .negSucc k =>
    let places := k + 1
    if places < digits.length then
      digits.take (digits.length - places) ++ '.' :: digits.drop (digits.length - places)
    else '0' :: '.' :: (List.replicate (places - digits.length) '0' ++ digits)

/-- A whole number with its sign. -/
def signedText : Int → List Char
  | .ofNat n => Nat.toDigits 10 n
  | .negSucc n => '-' :: Nat.toDigits 10 (n + 1)

/-- One digit, the others after a point, and the exponent. -/
def exponentText (mark : Char) (x : Decimal) : List Char :=
  let digits := Nat.toDigits 10 x.digits
  let rest := digits.drop 1
  digits.take 1 ++ (if rest.isEmpty then [] else '.' :: rest) ++
    mark :: signedText x.leadingPower

/-- The text of a positive decimal. -/
def text (style : Style) (x : Decimal) : List Char :=
  let power := x.leadingPower
  if style.leastPositional ≤ power ∧ power ≤ style.greatestPositional then x.positionalText
  else x.exponentText style.exponentMark

end Decimal

/-- The canonical text of a pattern: `0`, a shortest decimal, `inf` or `NaN`. -/
def magnitudeText (pattern : Nat) : List Char :=
  if pattern = 0 then ['0']
  else if pattern < Binary64.infinity then (Decimal.shortest pattern).text sheetStyle
  else "inf".toList

/-- The canonical characters of a double.  Zero and what is not a number have no sign. -/
def canonicalChars (x : Float) : List Char :=
  let pattern := magnitude x
  if Binary64.infinity < pattern then "NaN".toList
  else if isNegative x ∧ pattern ≠ 0 then '-' :: magnitudeText pattern
  else magnitudeText pattern

/-- The canonical text of a double. -/
def canonicalText (x : Float) : String :=
  String.ofList (canonicalChars x)

/-- How a double is shown: its canonical text, `#NAN!`, or `#INF!` for either infinity. -/
def displayText (x : Float) : String :=
  if Binary64.infinity < magnitude x then "#NAN!"
  else if magnitude x = Binary64.infinity then "#INF!"
  else canonicalText x

end FormulaSheet.Number
