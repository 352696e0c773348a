/-
Who leads to an edited name.

An edit of a name changes the mentions of that name alone.  A path of mentions to the name can be
cut where it first comes there, and up to that place it goes over other cells only; so the same
names lead to the edited name before the edit and after it.  These are the names that the edit
affects, and what an unaffected name leads to is the same cells before and after.

* **`MentionsElsewhere`**, **`reaches_iff_elsewhere`** — paths over other cells;
* **`reaches_cellsWith_iff`** — who leads to the edited name, before the edit and after it;
* **`transGen_self_cellsWith_iff`** — when the edited name would lead to itself;
* **`Mirrors.mem_affected_iff`** — the edit affects those that lead to the edited name;
* **`getElem?_cellsWith_of_reaches`** — what an unaffected name leads to stays.
-/
import FormulaSheet.Proofs.Document.Mirror

namespace FormulaSheet.Document

open Relation

variable {cells : Cells} {name a : String} {contents : Option Contents}

/-- The mentions of all cells but one. -/
def MentionsElsewhere (cells : Cells) (name a b : String) : Prop :=
  a ≠ name ∧ Mentions cells a b

/-- A path to a name can be cut where it first comes there. -/
theorem reaches_iff_elsewhere : ReflTransGen (Mentions cells) a name ↔
    ReflTransGen (MentionsElsewhere cells name) a name := by
  constructor
  · intro h
    -- from the front, so that the path is cut at its first visit
    induction h using ReflTransGen.head_induction_on with
    | refl => exact .refl
    | @head a b hab _ ih =>
      by_cases ha : a = name
      · rw [ha]
      · exact .head ⟨ha, hab⟩ ih
  · intro h
    exact ReflTransGen.mono (fun x y hxy => hxy.2) _ _ h

theorem mentionsElsewhere_cellsWith (cells : Cells) (name : String) (contents : Option Contents) :
    MentionsElsewhere (cellsWith cells name contents) name = MentionsElsewhere cells name := by
  funext x y
  refine propext (and_congr_right fun hx => ?_)
  rw [mentions_cellsWith_iff, if_neg hx]

/-- Who leads to the edited name after the edit led to it before, and the other way round. -/
theorem reaches_cellsWith_iff : ReflTransGen (Mentions (cellsWith cells name contents)) a name ↔
    ReflTransGen (Mentions cells) a name := by
  rw [reaches_iff_elsewhere, mentionsElsewhere_cellsWith, ← reaches_iff_elsewhere]

/-- The edited name would lead to itself if its new contents mention it, or mention a name that
leads to it over other cells. -/
theorem transGen_self_cellsWith_iff :
    TransGen (Mentions (cellsWith cells name contents)) name name ↔
      ∃ v ∈ contents.elim [] Contents.mentions,
        v = name ∨ TransGen (MentionsElsewhere cells name) v name := by
  rw [TransGen.head'_iff]
  refine exists_congr fun v => and_congr ?_ ?_
  · rw [mentions_cellsWith_iff, if_pos rfl]
  · rw [reaches_iff_elsewhere, mentionsElsewhere_cellsWith, reflTransGen_iff_eq_or_transGen,
      eq_comm]

/-- An accepted edit affects the edited name and all that lead to it. -/
theorem Mirrors.mem_affected_iff {doc : Document} (h : doc.Mirrors) {affected : List String}
    (hok : (doc.mentionsWith name contents).affected name = .ok affected) :
    a ∈ affected ↔ ReflTransGen (Mentions doc.cells) a name := by
  rw [(MentionIndex.affected_ok hok).2.2, h.leadsTo_mentionsWith, reflTransGen_swap,
    reaches_cellsWith_iff]

/-- What an unaffected name leads to stays as it was. -/
theorem getElem?_cellsWith_of_reaches (ha : ¬ ReflTransGen (Mentions cells) a name) {x : String}
    (hx : ReflTransGen (Mentions cells) a x) :
    (cellsWith cells name contents)[x]? = cells[x]? := by
  -- the edited name itself is not on the way, for `a` does not lead there
  have hne : x ≠ name := by
    rintro rfl
    exact ha hx
  rw [getElem?_cellsWith, if_neg hne]

end FormulaSheet.Document
