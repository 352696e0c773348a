/-
What reads leave.

A read computes values and keeps them, and changes nothing else.  So after any reads a document
answers every further read as it would have answered it before, and is saved as the same text.

* **`AfterReads`** — what a document is after some reads;
* **`AfterReads.answer_value`** — which reads were made before does not show in an answer;
* **`AfterReads.answer_edit`** — nor in whether an edit is accepted and what it affects;
* **`AfterReads.fileText`** — nor in what is saved.
-/
import FormulaSheet.Proofs.Document.Reload

namespace FormulaSheet.Document

/-- What a document is after some reads: more values are computed, and all of them are right. -/
structure AfterReads (doc doc' : Document) : Prop where
  sound : doc'.Sound
  exists_cache : ∃ cache, doc' = { doc with cache }

namespace AfterReads

variable {doc doc' : Document}

theorem refl (h : doc.Sound) : AfterReads doc doc :=
  ⟨h, doc.cache, rfl⟩

theorem value (h : AfterReads doc doc') (spelling : String) :
    AfterReads doc (doc'.value spelling).document := by
  refine ⟨h.sound.value spelling, ?_⟩
  obtain ⟨cache, rfl⟩ := h.exists_cache
  obtain ⟨cache', hread⟩ := document_value { doc with cache } spelling
  exact ⟨cache', hread⟩

theorem answer_value (h : AfterReads doc doc') (hsound : doc.Sound) (spelling : String) :
    (doc'.value spelling).answer = (doc.value spelling).answer := by
  obtain ⟨cache, hdoc⟩ := h.exists_cache
  exact answer_value_eq hsound h.sound (by rw [hdoc]) (by rw [hdoc]) spelling

theorem answer_edit (h : AfterReads doc doc') (spelling input : String) :
    (doc'.edit spelling input).answer = (doc.edit spelling input).answer := by
  obtain ⟨cache, rfl⟩ := h.exists_cache
  show (Document.edit { doc with cache } spelling input).answer = _
  unfold edit resolve
  cases doc.config.rules.resolve? spelling with
  | none => rfl
  | some name =>
    cases classify doc.config input with
    | error e => rfl
    | ok contents =>
      dsimp only
      unfold put
      dsimp only
      -- the search for a cycle does not look at the cache
      split <;> rfl

theorem contents (h : AfterReads doc doc') (spelling : String) :
    doc'.contents spelling = doc.contents spelling := by
  obtain ⟨cache, rfl⟩ := h.exists_cache
  rfl

theorem names (h : AfterReads doc doc') : doc'.names = doc.names := by
  obtain ⟨cache, rfl⟩ := h.exists_cache
  rfl

theorem fileText (h : AfterReads doc doc') : doc'.fileText = doc.fileText := by
  obtain ⟨cache, rfl⟩ := h.exists_cache
  rfl

end AfterReads

end FormulaSheet.Document
