/-
Refused edits.

An edit is refused for a bad name, for a bad formula, or because the edited name would lead to
itself.  Only in the last case has the document been touched at all: the new mentions are in the
index while it is searched, and the old ones are put back.

* **`Mirrors.exists_path_of_cycle`** — the cycle that is reported goes from the edited name over the
  formulas that would then be stored back to it;
* **`document_eq_of_refused`** — a refused edit leaves the whole document as it was;
* **`refused_as_cycle_iff`** — an edit is refused as circular exactly if its formula mentions the
  edited name or a name that leads there, and what is reported is such a circle.

Before the edit no mentions lead back, so a cycle that the walk finds passes through the edited
name; and that name is where the walk starts, so the cycle is closed there.
-/
import FormulaSheet.Proofs.Document.Reach
import Mathlib

namespace FormulaSheet.Document

open Relation

variable {doc : Document} {name : String} {contents : Option Contents}

/-- The cycle that an edit meets leads from the edited name to itself. -/
theorem Mirrors.exists_path_of_cycle (h : doc.Mirrors) {cycle : Cycle}
    (hcycle : (doc.mentionsWith name contents).affected name = .error cycle) :
    ∃ between, cycle.path = name :: (between ++ [name]) ∧ (name :: between).Nodup ∧
      cycle.path.IsChain (Mentions (cellsWith doc.cells name contents)) := by
  obtain ⟨hpath, -, hhead⟩ := MentionIndex.affected_error hcycle
  have hmentions : ∀ {a b}, a ∈ (doc.mentionsWith name contents).mentioners b →
      Mentions (cellsWith doc.cells name contents) a b := by
    intro a b hab
    exact (congrFun (congrFun (h.leadsTo_mentionsWith name contents) b) a).mp hab
  -- over other cells than the edited one the cycle would have been there before
  have hmem : name ∈ cycle.path := by
    by_contra hnot
    have hold : doc.mentions.IsCycle cycle.path := by
      refine hpath.of_mentioners ?_
      intro a ha b hab
      have hne : a ≠ name := ne_of_mem_of_not_mem ha hnot
      have hab := hmentions hab
      rw [mentions_cellsWith_iff, if_neg hne] at hab
      exact h.leadsTo_iff.2 hab
    obtain ⟨x, -, hloop⟩ := hold.exists_transGen_self
    refine h.acyclic x (TransGen.swap _ _ ?_)
    exact TransGen.mono (fun b a hba => h.leadsTo_iff.1 hba) _ _ hloop
  obtain ⟨first, between, heq, hnodup, hchain⟩ := hpath
  -- the walk starts at the edited name, so a cycle through it is closed there
  have hfirst : first = name := by
    have hstart := hhead hmem
    rw [heq] at hstart
    exact Option.some.inj hstart
  subst hfirst
  exact ⟨between, heq, hnodup, hchain.imp fun a b hab => hmentions hab⟩

theorem document_edit_of_error (h : doc.Mirrors) {spelling input : String} {e : EditError}
    (hanswer : (doc.edit spelling input).answer = .error e) :
    (doc.edit spelling input).document = doc := by
  have houtcome := edit_outcome h spelling input
  rw [hanswer] at houtcome
  generalize (doc.edit spelling input).document = after at houtcome
  cases houtcome with
  | badName _ => rfl
  | badFormula _ _ => rfl
  | cycle _ _ _ => rfl

theorem exists_affected_of_cycle (h : doc.Mirrors) {spelling input : String} {cycle : Cycle}
    (hanswer : (doc.edit spelling input).answer = .error (.cycle cycle)) :
    ∃ name contents, doc.resolve spelling = .ok name ∧
      classify doc.config input = .ok contents ∧
      (doc.mentionsWith name contents).affected name = .error cycle := by
  have houtcome := edit_outcome h spelling input
  rw [hanswer] at houtcome
  generalize (doc.edit spelling input).document = after at houtcome
  cases houtcome with
  | cycle hname hcontents hcycle => exact ⟨_, _, hname, hcontents, hcycle⟩

/-- An edit of a good name with good contents is refused as circular exactly if the name would
lead to itself. -/
theorem answer_cycle_iff (h : doc.Mirrors) {spelling input : String}
    (hname : doc.resolve spelling = .ok name)
    (hcontents : classify doc.config input = .ok contents) :
    (∃ cycle, (doc.edit spelling input).answer = .error (.cycle cycle)) ↔
      TransGen (Mentions (cellsWith doc.cells name contents)) name name := by
  obtain ⟨pairs, hpairs, -⟩ := h.represents
  rw [edit_eq_put hname hcontents, ← not_iff_not, ← h.affected_isOk_iff]
  cases hresult : (doc.mentionsWith name contents).affected name with
  | error cycle => simp [(put_of_error hpairs hresult).1]
  | ok affected => simp [(put_of_ok hresult).1]

/-- A refused edit, at any time of any run, leaves the whole document as it was: what the cells
hold, what has been computed, both directions of the index with no name kept without neighbours,
the number of mentions, and whether there are changes. -/
theorem document_eq_of_refused {config : SheetConfig} {operations : List Operation}
    {spelling input : String} {e : EditError}
    (hrefused : (((new config).run operations).edit spelling input).answer = .error e) :
    let doc := (new config).run operations
    (doc.edit spelling input).document = doc ∧
      ∃ pairs, (doc.edit spelling input).document.mentions.Represents pairs := by
  intro doc
  have h : doc.Mirrors := Mirrors.run config operations
  have hdoc := document_edit_of_error h hrefused
  obtain ⟨pairs, hpairs, -⟩ := h.represents
  refine ⟨hdoc, pairs, ?_⟩
  rw [hdoc]
  exact hpairs

/-- A formula that keeps one mention of its cell and adds another, which closes a cycle. -/
theorem document_eq_of_refused_overlap :
    let doc := (new {}).run [.edit "a" "=b", .edit "b" "=c"]
    (doc.edit "b" "=c*a").answer = .error (.cycle ⟨["b", "a", "b"]⟩) ∧
      (doc.edit "b" "=c*a").document = doc ∧
      ∃ pairs, (doc.edit "b" "=c*a").document.mentions.Represents pairs := by
  have hrefused : (((new {}).run [.edit "a" "=b", .edit "b" "=c"]).edit "b" "=c*a").answer =
      .error (.cycle ⟨["b", "a", "b"]⟩) := by
    cbv
  exact ⟨hrefused, document_eq_of_refused hrefused⟩

/-- At any time of any run, a formula for a cell is refused as circular exactly if it mentions that
cell, or a name from which formulas stored in other cells lead there.  The path that is reported
goes from the cell back to it, no other name twice, each formula on it mentioning the next name.
What is no formula is never refused as circular. -/
theorem refused_as_cycle_iff {config : SheetConfig} {operations : List Operation}
    {spelling name : String} (hname : ((new config).run operations).resolve spelling = .ok name)
    (input : String) :
    let doc := (new config).run operations
    (∀ f, classify doc.config input = .ok (some (.formula f)) →
      ((∃ cycle, (doc.edit spelling input).answer = .error (.cycle cycle)) ↔
        ∃ v ∈ f.mentions, v = name ∨ TransGen (MentionsElsewhere doc.cells name) v name) ∧
      ∀ cycle, (doc.edit spelling input).answer = .error (.cycle cycle) →
        ∃ between, cycle.path = name :: (between ++ [name]) ∧ (name :: between).Nodup ∧
          cycle.path.IsChain fun a b =>
            if a = name then b ∈ f.mentions else Mentions doc.cells a b) ∧
      ((∀ f, classify doc.config input ≠ .ok (some (.formula f))) →
        ∀ cycle, (doc.edit spelling input).answer ≠ .error (.cycle cycle)) := by
  intro doc
  have h : doc.Mirrors := Mirrors.run config operations
  refine ⟨?_, ?_⟩
  · intro f hf
    refine ⟨?_, ?_⟩
    · rw [answer_cycle_iff h hname hf, transGen_self_cellsWith_iff]
      rfl
    · intro cycle hanswer
      obtain ⟨name', contents, hname', hcontents, hcycle⟩ := exists_affected_of_cycle h hanswer
      obtain rfl : name = name' := Except.ok.inj (hname.symm.trans hname')
      obtain rfl : some (.formula f) = contents := Except.ok.inj (hf.symm.trans hcontents)
      obtain ⟨between, hpath, hnodup, hchain⟩ := h.exists_path_of_cycle hcycle
      exact ⟨between, hpath, hnodup, hchain.imp fun a b hab => mentions_cellsWith_iff.1 hab⟩
  · intro hno cycle hanswer
    obtain ⟨name', contents, hname', hcontents, hcycle⟩ := exists_affected_of_cycle h hanswer
    -- contents that are no formula mention nothing
    obtain ⟨v, hv, -⟩ := transGen_self_cellsWith_iff.1
      ((answer_cycle_iff h hname' hcontents).1 ⟨cycle, hanswer⟩)
    match contents with
    | none => cases hv
    | some (.number x) => cases hv
    | some (.text s) => cases hv
    | some (.formula f) => exact hno f hcontents

/-- A circle through three cells, closed by the formula of the last one. -/
theorem refused_as_cycle_iff_three :
    let doc := (new {}).run [.edit "a" "=b", .edit "b" "=c"]
    let f : Formula := ⟨[.var "d", .operator .div, .var "a"]⟩
    doc.resolve "c" = .ok "c" ∧ classify doc.config "=d/a" = .ok (some (.formula f)) ∧
      (doc.edit "c" "=d/a").answer = .error (.cycle ⟨["c", "a", "b", "c"]⟩) ∧
      (∃ v ∈ f.mentions, v = "c" ∨ TransGen (MentionsElsewhere doc.cells "c") v "c") ∧
      ["c", "a", "b", "c"].IsChain fun a b =>
        if a = "c" then b ∈ f.mentions else Mentions doc.cells a b := by
  have hname : ((new {}).run [.edit "a" "=b", .edit "b" "=c"]).resolve "c" = .ok "c" := by
    cbv
  have hf : classify ((new {}).run [.edit "a" "=b", .edit "b" "=c"]).config "=d/a" =
      .ok (some (.formula ⟨[.var "d", .operator .div, .var "a"]⟩)) := by
    cbv
  have hanswer : (((new {}).run [.edit "a" "=b", .edit "b" "=c"]).edit "c" "=d/a").answer =
      .error (.cycle ⟨["c", "a", "b", "c"]⟩) := by
    cbv
  obtain ⟨hiff, hpath⟩ := (refused_as_cycle_iff hname "=d/a").1 _ hf
  obtain ⟨between, -, -, hchain⟩ := hpath _ hanswer
  exact ⟨hname, hf, hanswer, hiff.1 ⟨_, hanswer⟩, hchain⟩

end FormulaSheet.Document
