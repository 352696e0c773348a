/-
Edits.

An input is classified by its form: nothing clears the cell, a finite number between blanks is
a number, `=` starts a formula, and anything else is text.  An edit then replaces what the cell
holds and what it mentions, forgets the computed values of the cell and of all that depend on
it, and answers their names.

The mentions are replaced in place before it is known whether they close a cycle; if they do,
the old ones are put back.  So a refused edit leaves the document as it was, though for a
moment it was not.

* **`Document.edit`** — make an edit, or refuse it;
* **`Document.classify`** — what an input makes a cell hold.
-/
import FormulaSheet.Document.Basic
import FormulaSheet.Number.Numeral

namespace FormulaSheet.Document

/-- What an input makes a cell hold; nothing, if it clears the cell. -/
def classify (config : SheetConfig) (input : String) : Except EditError (Option Contents) :=
  match input.toList with
  | [] => .ok none
  | text@(first :: rest) =>
    match Number.readFinite? (Text.trim text) with
    | some x => .ok (some (.number x))
    | none =>
      if first = '=' then
        match Formula.parse config.rules rest with
        | .ok f => .ok (some (.formula f))
        | .error e => .error (.badFormula e)
      else .ok (some (.text input))

/-- Forget computed values. -/
def forget (cache : Cache) (names : List String) : Cache :=
  names.foldl (fun cache name => cache.erase name) cache

/-- Make a cell hold the given contents, or nothing, unless that closes a cycle. -/
def put (doc : Document) (name : String) (contents : Option Contents) :
    Reply (Except EditError (List String)) :=
  let unchanged := doc.cells[name]? == contents
  let previous := doc.mentions.mentioned name
  -- From here on the new mentions are in the index, whether or not they may stay.
  let mentions := doc.mentions.replaceMentioned name (contents.elim [] Contents.mentions)
  match mentions.affected name with
  | .error cycle =>
    { answer := .error (.cycle cycle)
      document := { doc with mentions := mentions.replaceMentioned name previous }
      events := [.cycleMet name cycle, .editRefused name cycle] }
  | .ok affected =>
    { answer := .ok affected
      document := { doc with
        cells := contents.elim (doc.cells.erase name) (doc.cells.insert name)
        cache := forget doc.cache affected
        mentions
        modified := doc.modified || !unchanged }
      events := [.edited name unchanged affected.length] }

/-- Enter an input into a cell.  The answer is the cell and all that depend on it, in an order
in which they can be computed again. -/
def edit (doc : Document) (spelling input : String) : Reply (Except EditError (List String)) :=
  match doc.resolve spelling with
  | .error e => { answer := .error e, document := doc }
  | .ok name =>
    match classify doc.config input with
    | .error e => { answer := .error e, document := doc }
    | .ok contents => doc.put name contents

/-- Empty a cell. -/
def clear (doc : Document) (spelling : String) : Reply (Except EditError (List String)) :=
  doc.edit spelling ""

end FormulaSheet.Document
