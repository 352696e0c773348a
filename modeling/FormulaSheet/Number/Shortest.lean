/-
The shortest decimal of a double.

The reals that read as a given double form an interval around it, whose ends lie halfway to
the two neighbouring doubles and belong to it exactly when the pattern is even.  Of the
decimals in that interval we want one on the coarsest grid `10 ^ j` that meets it, and on that
grid the one nearest to the double, the upper one of two equally near.  Such a decimal ends in
no zero, so it also has the fewest digits.

Only the two grid points next to the double have to be tried: if any point of a grid lies in
the interval, so does one of those two.  The search goes down from a grid coarser than the
double itself and ends at `10 ^ -1074` at the latest, a grid that holds every double exactly.

* **`Decimal.contains`** — whether a decimal reads as a given double;
* **`Decimal.shortest`** — the shortest decimal that does.
-/
import FormulaSheet.Number.Binary64

namespace FormulaSheet.Number

open Power

/-- The decimal `digits * 10 ^ scale`. -/
structure Decimal where
  digits : Nat
  scale : Int
deriving Repr, DecidableEq

namespace Decimal

/-- Numerator of `10 ^ scale` in units of `2 ^ -1075`, half the smallest double. -/
def stepNum (scale : Int) : Nat := 10 ^ scale.toNat * 2 ^ (1075 : Nat)

/-- Denominator of `10 ^ scale` in units of `2 ^ -1075`. -/
def stepDen (scale : Int) : Nat := 10 ^ (-scale).toNat

/-- Whether a decimal lies among the reals that read as the double `pattern`. -/
def contains (pattern : Nat) (x : Decimal) : Bool :=
  let here := x.digits * stepNum x.scale
  let low := (Binary64.units (pattern - 1) + Binary64.units pattern) * stepDen x.scale
  let high := (Binary64.units pattern + Binary64.units (pattern + 1)) * stepDen x.scale
  if pattern % 2 = 0 then low ≤ here && here ≤ high else low < here && here < high

/-- Of the two points of the grid `10 ^ scale` next to the double `pattern`, the nearest one
that reads as it, the upper one of two equally near. -/
def onGrid? (pattern : Nat) (scale : Int) : Option Decimal :=
  let exact := 2 * Binary64.units pattern * stepDen scale
  let below : Decimal := ⟨exact / stepNum scale, scale⟩
  let above : Decimal := ⟨exact / stepNum scale + 1, scale⟩
  match contains pattern below, contains pattern above with
  | true, true => some (if 2 * (exact % stepNum scale) < stepNum scale then below else above)
  | true, false => some below
  | false, true => some above
  | false, false => none

/-- The first hit on the grids `10 ^ (n - 1074)`, `10 ^ (n - 1075)`, … down to `10 ^ -1074`,
where the double itself is a point. -/
def searchFrom (pattern : Nat) : Nat → Decimal
  | 0 => ⟨Binary64.units pattern * 5 ^ (1074 : Nat), -1074⟩
  | n + 1 => (onGrid? pattern (n - 1073)).getD (searchFrom pattern n)

/-- The number of grids to search, so that the first is coarser than the double: the power
of ten that is above the whole part, or above the reciprocal of what is left of it. -/
def gridCount (pattern : Nat) : Nat :=
  let whole := Binary64.units pattern / 2 ^ (1074 : Nat)
  if whole = 0 then
    1075 - (Nat.toDigits 10 ((2 ^ (1074 : Nat) - 1) / Binary64.units pattern)).length
  else (Nat.toDigits 10 whole).length + 1074

/-- The shortest decimal that reads as the double `pattern`. -/
def shortest (pattern : Nat) : Decimal :=
  searchFrom pattern (gridCount pattern)

end Decimal

end FormulaSheet.Number
