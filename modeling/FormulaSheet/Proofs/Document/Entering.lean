/-
Entering cells one after the other.

A cell that is entered is refused only if its name or its formula is bad or if it closes a cycle.
A cycle is one of the mentions held so far, so while these are some of the mentions of a sheet
without cycles, no cell is refused as circular, whatever the order.  What is entered stays until the
same cell is entered again.

* **`Document.Means`** — what a name and an input make which cell hold;
* **`Document.exists_enterAll`** — cells that mean something are entered, if the mentions of all of
  them together have no cycle;
* **`Document.enterAll_cells`** — what is held in the end was entered, or was held before.
-/
import FormulaSheet.Proofs.Document.Mirror

namespace FormulaSheet

open Relation

/-- A saved cell without the line it stands on: the name and the input. -/
def SavedCell.entry (cell : SavedCell) : String × String :=
  (cell.name, cell.input)

namespace Document

/-- A name and an input make a cell hold contents, or clear it. -/
structure Means (config : SheetConfig) (entry : String × String) (name : String)
    (contents : Option Contents) : Prop where
  name : config.rules.resolve? entry.1 = some name
  contents : classify config entry.2 = .ok contents

theorem Means.unique {config : SheetConfig} {entry : String × String} {name name' : String}
    {contents contents' : Option Contents} (h : Means config entry name contents)
    (h' : Means config entry name' contents') : name = name' ∧ contents = contents' :=
  ⟨Option.some.inj (h.name.symm.trans h'.name), Except.ok.inj (h.contents.symm.trans h'.contents)⟩

section Entering

variable {doc doc' : Document} {R : String → String → Prop} {saved : List SavedCell}

/-- No cycle is met while all mentions are among those of a relation without cycles. -/
theorem exists_affected (hmirrors : doc.Mirrors) (hacyclic : ∀ a, ¬ TransGen R a a) {name : String}
    {contents : Option Contents}
    (hheld : ∀ a b, Mentions (cellsWith doc.cells name contents) a b → R a b) :
    ∃ affected, (doc.mentionsWith name contents).affected name = .ok affected :=
  hmirrors.affected_isOk_iff.2 fun hcycle => hacyclic name (TransGen.mono hheld _ _ hcycle)

/-- Cells that mean something are entered, if their mentions and those of the cells held before are
among those of a relation without cycles. -/
theorem exists_enterAll (hmirrors : doc.Mirrors) (hacyclic : ∀ a, ¬ TransGen R a a)
    (hheld : ∀ a b, Mentions doc.cells a b → R a b)
    (hsaved : ∀ cell ∈ saved, ∃ name contents, Means doc.config cell.entry name contents ∧
      ∀ b ∈ contents.elim [] Contents.mentions, R name b) :
    ∃ doc', (doc.enterAll saved).answer = .ok doc' := by
  induction saved generalizing doc with
  | nil => exact ⟨doc, rfl⟩
  | cons cell rest ih =>
    -- the induction is over the lines, for all documents: the edit of the first yields the next
    obtain ⟨name, contents, hmeans, hname⟩ := hsaved cell (.head _)
    -- after the edit, too, all mentions are among those of the relation
    have hheld' : ∀ a b, Mentions (cellsWith doc.cells name contents) a b → R a b := by
      intro a b hab
      rw [mentions_cellsWith_iff] at hab
      split at hab
      · next ha => exact ha ▸ hname b hab
      · exact hheld a b hab
    obtain ⟨affected, hok⟩ := exists_affected hmirrors hacyclic hheld'
    have hedit : doc.edit cell.name cell.input = doc.put name contents :=
      edit_eq_put (resolve_eq_ok_iff.2 hmeans.name) hmeans.contents
    obtain ⟨hanswer, hdoc⟩ := put_of_ok hok
    rw [← hedit] at hanswer hdoc
    have hrest : ∃ doc', ((doc.edit cell.name cell.input).document.enterAll rest).answer =
        .ok doc' := by
      refine ih (hmirrors.edit cell.name cell.input) ?_ ?_
      · rw [hdoc]
        exact hheld'
      · rw [config_edit]
        exact fun other hother => hsaved other (.tail _ hother)
    obtain ⟨doc', hdoc'⟩ := hrest
    refine ⟨doc', ?_⟩
    rw [enterAll]
    dsimp only
    rw [hanswer]
    exact hdoc'

/-- When cells have been entered, each of them meant something, and what is held under a name is
what one of them meant, or what was held before if none of them meant that name. -/
theorem enterAll_cells (hmirrors : doc.Mirrors)
    (hanswer : (doc.enterAll saved).answer = .ok doc') :
    (∀ cell ∈ saved, ∃ name contents, Means doc.config cell.entry name contents) ∧
      ∀ name : String,
        (∃ cell ∈ saved, Means doc.config cell.entry name doc'.cells[name]?) ∨
          (∀ cell ∈ saved, doc.config.rules.resolve? cell.name ≠ some name) ∧
            doc'.cells[name]? = doc.cells[name]? := by
  induction saved generalizing doc with
  | nil =>
    obtain rfl : doc = doc' := Except.ok.inj hanswer
    exact ⟨List.forall_mem_nil _, fun name => .inr ⟨List.forall_mem_nil _, rfl⟩⟩
  | cons cell rest ih =>
    unfold enterAll at hanswer
    dsimp only at hanswer
    split at hanswer
    · cases hanswer
    · next affected hedit =>
      obtain ⟨entered, contents, hname, hcontents, -, hdoc⟩ := exists_accepted_of_ok hmirrors hedit
      have hmeans : Means doc.config cell.entry entered contents :=
        ⟨resolve_eq_ok_iff.1 hname, hcontents⟩
      obtain ⟨hrest, hcells⟩ := ih (hmirrors.edit cell.name cell.input) hanswer
      rw [config_edit] at hrest hcells
      refine ⟨List.forall_mem_cons.2 ⟨⟨entered, contents, hmeans⟩, hrest⟩, fun name => ?_⟩
      rcases hcells name with ⟨other, hother, hlast⟩ | ⟨hnone, hsame⟩
      · exact .inl ⟨other, .tail _ hother, hlast⟩
      · -- no later cell means the name, so it holds what this cell left there
        rw [hdoc, accepted, getElem?_cellsWith] at hsame
        by_cases hentered : name = entered
        · rw [if_pos hentered] at hsame
          rw [hsame, hentered]
          exact .inl ⟨cell, .head _, hmeans⟩
        · rw [if_neg hentered] at hsame
          refine .inr ⟨List.forall_mem_cons.2 ⟨fun hother => hentered ?_, hnone⟩, hsame⟩
          exact Option.some.inj (hother.symm.trans hmeans.name)

end Entering

end Document

end FormulaSheet
