/-
What a cell holds and what it is worth.

A cell that is not empty holds a number, a text or a formula.  Its value is a number, a text,
or the reason why its formula has no number; an empty cell is worth the empty text.

* **`Contents.input`** — the input that makes a cell hold the same again;
* **`CellValue.display`** — how a value is shown.
-/
import FormulaSheet.Formula.Evaluation

namespace FormulaSheet

/-- What a cell that is not empty holds. -/
inductive Contents where
  | number (x : Float)
  | text (s : String)
  | formula (f : Formula)
deriving BEq

namespace Contents

/-- The input that makes a cell hold the same again. -/
def input : Contents → String
  | number x => Number.canonicalText x
  | text s => s
  | formula f => "=" ++ f.text

/-- The names that the contents of a cell mention. -/
def mentions : Contents → List String
  | formula f => f.mentions
  | number _ | text _ => []

end Contents

/-- What a cell is worth. -/
inductive CellValue where
  | number (x : Float)
  | text (s : String)
  | error (e : EvalError)

namespace CellValue

/-- The value of an empty cell. -/
def empty : CellValue := text ""

/-- The number that a formula finds in a cell, if it finds one. -/
def number? : CellValue → Option Float
  | number x => some x
  | text _ | error _ => none

/-- Whether a value is an error. -/
def isError : CellValue → Bool
  | error _ => true
  | number _ | text _ => false

/-- The value of a formula from the outcome of its evaluation. -/
def ofResult : Except EvalError Float → CellValue
  | .ok x => number x
  | .error e => error e

/-- How a value is shown. -/
def display : CellValue → String
  | number x => Number.displayText x
  | text s => s
  | error e => s!"#ERR: {e.message}"

end CellValue

end FormulaSheet
