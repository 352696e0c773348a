/-
Documents.

A document holds what its cells hold, an index of which formulas mention which names, the
values already computed, and whether it differs from what was last saved or loaded.  All names
in it are in normal form.

* **`Document`** — the state of a sheet;
* **`Reply`** — what an operation answers, the document after it, and what it reports.
-/
import FormulaSheet.Document.Contents
import FormulaSheet.Document.Error
import FormulaSheet.Document.Event
import FormulaSheet.Name.Order

namespace FormulaSheet

/-- What a document is made with: the rules for its names and the version of its files. -/
structure SheetConfig where
  rules : NameRules := {}
  version : String := "default"

/-- What the cells that are not empty hold. -/
abbrev Cells := Std.ExtTreeMap String Contents compare

/-- The values already computed. -/
abbrev Cache := Std.ExtTreeMap String CellValue compare

/-- The state of a sheet. -/
structure Document where
  config : SheetConfig
  cells : Cells := ∅
  cache : Cache := ∅
  mentions : MentionIndex := {}
  modified : Bool := false

/-- What an operation on a document answers, the document after it, and what it reports. -/
structure Reply (α : Type) where
  answer : α
  document : Document
  events : List Event := []

namespace Document

/-- A document with no cells. -/
def new (config : SheetConfig) : Document := { config }

/-- The version of the files of a document. -/
def version (doc : Document) : String := doc.config.version

/-- The cell that a spelling means. -/
def resolve (doc : Document) (spelling : String) : Except EditError String :=
  match doc.config.rules.resolve? spelling with
  | some name => .ok name
  | none => .error (.badName spelling)

/-- The names of all cells that are not empty, in listing order. -/
def names (doc : Document) : List String :=
  sortNames doc.cells.keys

/-- What a cell holds. -/
def contents (doc : Document) (spelling : String) : Except EditError (Option Contents) := do
  return doc.cells[← doc.resolve spelling]?

/-- The names that the formula in a cell mentions, in order. -/
def mentioned (doc : Document) (spelling : String) : Except EditError (List String) := do
  return doc.mentions.mentioned (← doc.resolve spelling)

/-- The cells whose formula mentions a name, in order. -/
def mentioners (doc : Document) (spelling : String) : Except EditError (List String) := do
  return doc.mentions.mentioners (← doc.resolve spelling)

end Document

end FormulaSheet
