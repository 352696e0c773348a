/-
Why a document refuses.

An edit or a read is refused with an `EditError`, a save or a load with a `StorageError`; a
load is an edit per line, so a storage error may carry an edit error as its cause.  `message`
words an error by itself, and `causes` words it together with what lies behind it, outermost
first; both repeat inner messages where the outer ones quote them.
-/
import FormulaSheet.Files
import FormulaSheet.Formula.Error
import FormulaSheet.Mention.Affected
import FormulaSheet.SheetFile.Error

namespace FormulaSheet

/-- Why an edit or a read is refused. -/
inductive EditError where
  | badName (spelling : String)
  | badFormula (e : FormulaError)
  | cycle (c : Cycle)

namespace EditError

/-- The wording of an edit error. -/
def message : EditError → String
  | badName spelling => s!"Invalid cell name: {spelling}"
  | badFormula e => s!"Invalid formula: {e.message}"
  | cycle c => c.message

/-- An edit error and what lies behind it. -/
def causes : EditError → List String
  | badFormula e => [(badFormula e).message, e.message]
  | e => [e.message]

end EditError

/-- Why a save or a load is refused. -/
inductive StorageError where
  | file (e : FileError)
  | format (e : SheetFileError)
  | wrongVersion (expected found : String)
  | badCell (name : String) (cause : EditError)

namespace StorageError

/-- The wording of a storage error. -/
def message : StorageError → String
  | file e => s!"IO error: {e.message}"
  | format e => e.message
  | wrongVersion expected found => s!"Version mismatch: expected '{expected}', found '{found}'"
  | badCell name cause => s!"Cell {name}: {cause.message}"

/-- A storage error and what lies behind it. -/
def causes : StorageError → List String
  | file e => [(file e).message, e.message]
  | badCell name cause => (badCell name cause).message :: cause.causes
  | e => [e.message]

end StorageError

/-- Why a document refuses an operation. -/
inductive DocumentError where
  | edit (e : EditError)
  | storage (e : StorageError)

namespace DocumentError

/-- The wording of a document error. -/
def message : DocumentError → String
  | edit e => e.message
  | storage e => s!"Read/write error: {e.message}"

/-- A document error and what lies behind it. -/
def causes : DocumentError → List String
  | edit e => e.causes
  | storage e => (storage e).message :: e.causes

end DocumentError

end FormulaSheet
