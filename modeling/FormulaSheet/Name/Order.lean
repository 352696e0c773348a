/-
The order in which cells are listed.

References come first, by row, then column, then spelling (`a1` and `A01` mean the same cell
of the grid but are different names); all other names follow in the order of their characters,
which is also the order of their UTF-8 bytes.

* **`compareNames`** — the order, as a comparison;
* **`sortNames`** — a list in that order, equal names staying as they stand.
-/
import FormulaSheet.Name.Reference

namespace FormulaSheet

/-- Compare two names for listing. -/
def compareNames (a b : String) : Ordering :=
  match Reference.parse? a, Reference.parse? b with
  | some x, some y =>
    (compare x.row y.row).then ((compare x.column y.column).then (compare a b))
  | some _, none => .lt
  | none, some _ => .gt
  | none, none => compare a b

/-- Sort names for listing. -/
def sortNames (names : List String) : List String :=
  names.mergeSort fun a b => (compareNames a b).isLE

end FormulaSheet
