/-
Runs of operations.

A run starts from an empty document and performs operations one after the other: edits, accepted
or not, reads, saves to writers that may fail, and loads, each of which replaces the document if
it succeeds.  A load enters the lines of a file into an empty document, so a property that new
documents have and that edits, reads and saves keep holds after every run.

* **`Operation`**, **`Document.perform`**, **`Document.run`** — runs;
* **`Document.run_invariant`** — what holds after every run.
-/
import FormulaSheet.Document.Storage
import FormulaSheet.Document.Value

namespace FormulaSheet

/-- What can be done with a document. -/
inductive Operation where
  | edit (spelling input : String)
  | clear (spelling : String)
  | value (spelling : String)
  | contents (spelling : String)
  | saveTo (writer : Writer Id)
  | saveFile (files : FileSystem Id) (path : String)
  | load (config : SheetConfig) (text : String)
  | loadFile (files : FileSystem Id) (config : SheetConfig) (path : String)

namespace Document

/-- The document after a load: what was loaded, or else the document that was there. -/
def replacedBy (doc : Document) (loaded : Loaded Document) : Document :=
  match loaded.answer with
  | .ok doc => doc
  | .error _ => doc

/-- The document after an operation. -/
def perform (doc : Document) : Operation → Document
  | .edit spelling input => (doc.edit spelling input).document
  | .clear spelling => (doc.clear spelling).document
  | .value spelling => (doc.value spelling).document
  | .contents _ => doc
  | .saveTo writer => (Id.run (doc.saveTo writer)).document
  | .saveFile files path => (Id.run (doc.saveFile files path)).document
  | .load config text => doc.replacedBy (load config text)
  | .loadFile files config path => doc.replacedBy (Id.run (loadFile files config path))

/-- The document after some operations. -/
def run (doc : Document) (operations : List Operation) : Document :=
  operations.foldl perform doc

/-! ### What one operation can do -/

@[simp] theorem config_edit (doc : Document) (spelling input : String) :
    (doc.edit spelling input).document.config = doc.config := by
  unfold edit
  split
  · rfl
  · split
    · rfl
    · unfold put
      dsimp only
      split <;> rfl

/-- A read changes the cache alone. -/
theorem document_value (doc : Document) (spelling : String) :
    ∃ cache, (doc.value spelling).document = { doc with cache } := by
  unfold value
  split
  · exact ⟨doc.cache, rfl⟩
  · unfold valueOf
    dsimp only
    split
    · exact ⟨doc.cache, rfl⟩
    · exact ⟨_, rfl⟩

@[simp] theorem config_value (doc : Document) (spelling : String) :
    (doc.value spelling).document.config = doc.config := by
  obtain ⟨cache, hdoc⟩ := doc.document_value spelling
  rw [hdoc]

/-- A save succeeds and leaves no changes, or fails and leaves the document as it was. -/
theorem saveTo_cases (doc : Document) (writer : Writer Id) :
    (Id.run (doc.saveTo writer)).answer = .ok () ∧
        (Id.run (doc.saveTo writer)).document = doc.saved ∨
      (Id.run (doc.saveTo writer)).answer ≠ .ok () ∧
        (Id.run (doc.saveTo writer)).document = doc := by
  unfold saveTo
  simp only [Id.run_bind]
  split
  · exact .inr ⟨nofun, rfl⟩
  · -- what was written has to be flushed, too, before the mark is taken away
    simp only [Id.run_bind]
    split
    · exact .inr ⟨nofun, rfl⟩
    · exact .inl ⟨rfl, rfl⟩

theorem saveFile_cases (doc : Document) (files : FileSystem Id) (path : String) :
    (Id.run (doc.saveFile files path)).answer = .ok () ∧
        (Id.run (doc.saveFile files path)).document = doc.saved ∨
      (Id.run (doc.saveFile files path)).answer ≠ .ok () ∧
        (Id.run (doc.saveFile files path)).document = doc := by
  unfold saveFile
  simp only [Id.run_bind]
  split
  · exact .inr ⟨nofun, rfl⟩
  · exact .inl ⟨rfl, rfl⟩

/-- What is loaded from a file is loaded from some text. -/
theorem answer_loadFile {files : FileSystem Id} {config : SheetConfig} {path : String}
    {doc : Document} (h : (Id.run (loadFile files config path)).answer = .ok doc) :
    ∃ text, (load config text).answer = .ok doc := by
  unfold loadFile at h
  simp only [Id.run_bind] at h
  split at h
  · cases h
  · next bytes _ =>
    have hbytes : (loadBytes config bytes).answer = .ok doc := by
      split at h <;> exact h
    unfold loadBytes at hbytes
    split at hbytes
    · cases hbytes
    · exact ⟨_, hbytes⟩

/-- What is loaded is what the lines of the text, entered into a new document, make of it. -/
theorem answer_load {config : SheetConfig} {text : String} {doc : Document}
    (h : (load config text).answer = .ok doc) :
    ∃ cells doc', ((new config).enterAll cells).answer = .ok doc' ∧ doc = doc'.saved := by
  unfold load at h
  split at h
  · cases h
  · next sheet _ =>
    split at h
    · dsimp only at h
      cases hanswer : ((new config).enterAll sheet.cells).answer with
      | error e =>
        rw [hanswer] at h
        cases h
      | ok doc' =>
        rw [hanswer] at h
        cases h
        exact ⟨sheet.cells, doc', hanswer, rfl⟩
    · cases h

/-! ### What holds after every run -/

section Invariant

variable {P : Document → Prop} (hnew : ∀ config, P (new config))
  (hedit : ∀ {doc} spelling input, P doc → P (doc.edit spelling input).document)
  (hvalue : ∀ {doc} spelling, P doc → P (doc.value spelling).document)
  (hsaved : ∀ {doc}, P doc → P doc.saved)

include hedit in
theorem enterAll_invariant {doc doc' : Document} {cells : List SavedCell} (h : P doc)
    (hanswer : (doc.enterAll cells).answer = .ok doc') : P doc' := by
  induction cells generalizing doc with
  | nil =>
    cases hanswer
    exact h
  | cons cell rest ih =>
    unfold enterAll at hanswer
    dsimp only at hanswer
    split at hanswer
    · cases hanswer
    · exact ih (hedit cell.name cell.input h) hanswer

include hnew hedit hsaved in
theorem load_invariant {config : SheetConfig} {text : String} {doc : Document}
    (h : (load config text).answer = .ok doc) : P doc := by
  obtain ⟨cells, doc', hanswer, rfl⟩ := answer_load h
  exact hsaved (enterAll_invariant hedit (hnew config) hanswer)

include hnew hedit hsaved in
theorem replacedBy_invariant {doc : Document} {loaded : Loaded Document} (h : P doc)
    (hloaded : ∀ doc', loaded.answer = .ok doc' →
      ∃ config text, (load config text).answer = .ok doc') : P (doc.replacedBy loaded) := by
  unfold replacedBy
  -- a load that fails leaves the document that was there
  split
  · next doc' hanswer =>
    obtain ⟨config, text, hload⟩ := hloaded doc' hanswer
    exact load_invariant hnew hedit hsaved hload
  · exact h

include hnew hedit hvalue hsaved in
theorem perform_invariant {doc : Document} (operation : Operation) (h : P doc) :
    P (doc.perform operation) := by
  cases operation with
  | edit spelling input => exact hedit spelling input h
  | clear spelling => exact hedit spelling "" h
  | value spelling => exact hvalue spelling h
  | contents spelling => exact h
  | saveTo writer =>
    rw [perform]
    rcases doc.saveTo_cases writer with ⟨-, hdoc⟩ | ⟨-, hdoc⟩ <;> rw [hdoc]
    · exact hsaved h
    · exact h
  | saveFile files path =>
    rw [perform]
    rcases doc.saveFile_cases files path with ⟨-, hdoc⟩ | ⟨-, hdoc⟩ <;> rw [hdoc]
    · exact hsaved h
    · exact h
  | load config text =>
    exact replacedBy_invariant hnew hedit hsaved h fun doc' hdoc => ⟨config, text, hdoc⟩
  | loadFile files config path =>
    exact replacedBy_invariant hnew hedit hsaved h fun doc' hdoc => ⟨config, answer_loadFile hdoc⟩

include hnew hedit hvalue hsaved in
/-- What new documents have, and edits, reads and saves keep, holds after every run. -/
theorem run_invariant (config : SheetConfig) (operations : List Operation) :
    P ((new config).run operations) := by
  suffices hrun : ∀ doc, P doc → P (doc.run operations) from hrun _ (hnew config)
  induction operations with
  | nil => exact fun doc h => h
  | cons operation rest ih =>
    exact fun doc h => ih _ (perform_invariant hnew hedit hvalue hsaved operation h)

end Invariant

end Document

end FormulaSheet
