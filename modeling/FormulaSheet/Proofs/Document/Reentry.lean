/-
Entering what a cell holds already.

The input of a cell, entered into it again, is accepted and changes nothing but the sign of a zero;
and so does an input that was accepted just before.  Either edit still answers what every accepted
edit of that name answers, because the answer does not depend on what is entered.

* **`Mirrors.affected_unique`** — accepted edits of one name answer the same list;
* **`Mirrors.mentionsWith_eq_self`** — an edit that keeps the mentions of a name keeps the index;
* **`exists_put_equal`** — equal contents with the same mentions are accepted, and leave the index
  and the mark of unsaved changes alone;
* **`reenter_run`** — all of this for inputs, at any time of any run.

What a walk from an edited name meets leads to that name.  Where the edit is accepted the name does
not lead to itself, so its own mentions, the only ones that an edit replaces, are not looked at.
-/
import FormulaSheet.Proofs.Document.Input
import FormulaSheet.Proofs.Document.Reach

namespace FormulaSheet.Document

open Relation

variable {doc : Document} {name : String} {contents contents' : Option Contents}
  {affected affected' : List String}

/-! ### What an accepted edit answers -/

/-- What an accepted edit of a name answers does not depend on what is entered. -/
theorem Mirrors.affected_unique (h : doc.Mirrors)
    (hok : (doc.mentionsWith name contents).affected name = .ok affected)
    (hok' : (doc.mentionsWith name contents').affected name = .ok affected') :
    affected = affected' := by
  have hsame : (doc.mentionsWith name contents).affected name =
      (doc.mentionsWith name contents').affected name := by
    refine MentionIndex.affected_congr fun x hx y => ?_
    rw [h.leadsTo_mentionsWith] at hx
    rw [h.leadsTo_mentionsWith, h.leadsTo_mentionsWith]
    show Mentions _ y x ↔ Mentions _ y x
    have hback := reflTransGen_swap.1 hx
    rw [mentions_cellsWith_iff, mentions_cellsWith_iff]
    by_cases hy : y = name
    · subst hy
      rw [if_pos rfl, if_pos rfl]
      -- a mention of `x` would close a cycle, whichever of the two is entered
      refine iff_of_false (fun hmention => ?_) fun hmention => ?_
      · refine h.affected_isOk_iff.1 ⟨_, hok⟩ (.head' ?_ hback)
        rwa [mentions_cellsWith_iff, if_pos rfl]
      · refine h.affected_isOk_iff.1 ⟨_, hok'⟩
          (.head' ?_ (reaches_cellsWith_iff.2 (reaches_cellsWith_iff.1 hback)))
        rwa [mentions_cellsWith_iff, if_pos rfl]
    · rw [if_neg hy, if_neg hy]
  rw [hok, hok'] at hsame
  exact Except.ok.inj hsame

/-! ### Contents that change nothing -/

/-- Contents that mention what the cell mentions leave the index as it is. -/
theorem Mirrors.mentionsWith_eq_self (h : doc.Mirrors)
    (hsame : ∀ b, b ∈ contents.elim [] Contents.mentions ↔ Mentions doc.cells name b) :
    doc.mentionsWith name contents = doc.mentions := by
  obtain ⟨pairs, hpairs, hmem⟩ := h.represents
  obtain ⟨pairs', hpairs', hmem'⟩ := h.represents_mentionsWith name contents
  -- an index is settled by its pairs, so it is enough that no pair changes
  have heq : pairs' = pairs := by
    ext ⟨a, b⟩
    rw [hmem, hmem', mentions_cellsWith_iff]
    by_cases ha : a = name
    · rw [if_pos ha, ha, hsame]
    · rw [if_neg ha]
  subst heq
  exact hpairs'.eq hpairs

/-- Contents that are equal to those held, and mention the same, are accepted.  They take the place
of those held, and computed values are forgotten; the rest of the document stays. -/
theorem exists_put_equal (h : doc.Mirrors)
    (hsame : ∀ b, b ∈ contents.elim [] Contents.mentions ↔ Mentions doc.cells name b)
    (hequal : (doc.cells[name]? == contents) = true) :
    ∃ affected, (doc.mentionsWith name contents).affected name = .ok affected ∧
      (doc.put name contents).answer = .ok affected ∧
      (doc.put name contents).document =
        { doc with
          cells := cellsWith doc.cells name contents
          cache := forget doc.cache affected } := by
  have hindex := h.mentionsWith_eq_self hsame
  have hacyclic : ¬ TransGen (Mentions (cellsWith doc.cells name contents)) name name := by
    intro hcycle
    refine h.acyclic name (TransGen.mono (fun a b hab => ?_) _ _ hcycle)
    rw [mentions_cellsWith_iff] at hab
    split at hab
    · next ha => exact ha ▸ (hsame b).1 hab
    · exact hab
  obtain ⟨affected, hok⟩ := h.affected_isOk_iff.2 hacyclic
  obtain ⟨hanswer, hdoc⟩ := put_of_ok hok
  refine ⟨affected, hok, hanswer, ?_⟩
  rw [hdoc, accepted, hindex, hequal, Bool.not_true, Bool.or_false]

/-! ### Inputs -/

/-- The input of what a cell holds is accepted and leaves everything but computed values as it was,
up to the sign of zero; and it answers what every accepted edit of the cell answers. -/
theorem exists_edit_input (h : doc.Mirrors) (hentered : doc.Entered)
    (hidem : doc.config.rules.IsIdempotent) {c : Contents} (hcell : doc.cells[name]? = some c)
    {spelling : String} (hname : doc.resolve spelling = .ok name) :
    ∃ affected, (doc.edit spelling c.input).answer = .ok affected ∧
      (doc.edit spelling c.input).document =
        { doc with
          cells := doc.cells.insert name c.withoutNegativeZero
          cache := forget doc.cache affected } ∧
      ∀ spelling' input affected', doc.resolve spelling' = .ok name →
        (doc.edit spelling' input).answer = .ok affected' → affected' = affected := by
  have hcanonical := hentered.isCanonical hidem hcell
  have hsame : ∀ b, b ∈ (some c.withoutNegativeZero).elim [] Contents.mentions ↔
      Mentions doc.cells name b := by
    intro b
    rw [mentions_iff, hcell]
    cases c <;> rfl
  have hequal : (doc.cells[name]? == some c.withoutNegativeZero) = true := by
    rw [hcell]
    exact Contents.beq_withoutNegativeZero hcanonical
  obtain ⟨affected, hok, hanswer, hdoc⟩ := exists_put_equal h hsame hequal
  rw [edit_eq_put hname (Contents.classify_input hcanonical)]
  refine ⟨affected, hanswer, hdoc, fun spelling' input affected' hname' hanswer' => ?_⟩
  obtain ⟨name', contents', hname'', -, hok', -⟩ := exists_accepted_of_ok h hanswer'
  obtain rfl : name = name' := Except.ok.inj (hname'.symm.trans hname'')
  exact h.affected_unique hok' hok

theorem edit_accepted (h : doc.Mirrors) {spelling input : String}
    (hanswer : (doc.edit spelling input).answer = .ok affected) :
    let after := (doc.edit spelling input).document
    (after.edit spelling input).answer = .ok affected ∧
      (after.edit spelling input).document.cells = after.cells ∧
      (after.edit spelling input).document.mentions = after.mentions ∧
      (after.edit spelling input).document.modified = after.modified := by
  intro after
  obtain ⟨name, contents, hname, hcontents, hok, hdoc⟩ := exists_accepted_of_ok h hanswer
  have hafter : after.Mirrors := h.edit spelling input
  have hcells : after.cells = cellsWith doc.cells name contents := congrArg Document.cells hdoc
  have hheld : after.cells[name]? = contents := by rw [hcells, getElem?_cellsWith, if_pos rfl]
  have hsame : ∀ b, b ∈ contents.elim [] Contents.mentions ↔ Mentions after.cells name b := by
    intro b
    rw [mentions_iff, hheld]
  have hequal : (after.cells[name]? == contents) = true := by
    rw [hheld]
    cases contents with
    | none => rfl
    | some c => exact Contents.beq_self_of_classify hcontents
  have hconfig : after.config = doc.config := doc.config_edit spelling input
  have hname' : after.resolve spelling = .ok name := by
    rw [resolve_eq_ok_iff, hconfig]
    exact resolve_eq_ok_iff.1 hname
  rw [← hconfig] at hcontents
  obtain ⟨affected', hok', hanswer', hdoc'⟩ := exists_put_equal hafter hsame hequal
  rw [edit_eq_put hname' hcontents, hdoc', hanswer']
  refine ⟨congrArg Except.ok ?_, ?_, rfl, rfl⟩
  · -- the index after the edit is the one that the edit was accepted with
    have hindex : after.mentions = doc.mentionsWith name contents :=
      congrArg Document.mentions hdoc
    rw [hafter.mentionsWith_eq_self hsame, hindex, hok] at hok'
    exact (Except.ok.inj hok').symm
  · refine Std.ExtTreeMap.ext_getElem? fun a => ?_
    show (cellsWith after.cells name contents)[a]? = _
    rw [getElem?_cellsWith]
    split
    · next ha => rw [ha, hheld]
    · rfl

/-- Entering again what a cell holds, or what was entered just before, at any time of any run.

Where normal forms are their own normal forms, every cell that holds something is held under a name
that means itself, and under each spelling of that name its own input is accepted.  The cell then
holds equal contents, at most without the sign of a zero; the other cells, the mentions and the mark
of unsaved changes stay; and the answer is that of every other accepted edit of the name.  Whatever
the normal forms, an input that was accepted is accepted again right away, with the same answer, and
the cells, the mentions and the mark stay. -/
theorem reenter_run (config : SheetConfig) (operations : List Operation) :
    let doc := (new config).run operations
    (doc.config.rules.IsIdempotent → ∀ (name : String) (c : Contents), doc.cells[name]? = some c →
      doc.resolve name = .ok name ∧ ∀ spelling, doc.resolve spelling = .ok name →
        let reply := doc.edit spelling c.input
        ∃ affected, reply.answer = .ok affected ∧ (c == c.withoutNegativeZero) = true ∧
          reply.document.cells = doc.cells.insert name c.withoutNegativeZero ∧
          reply.document.mentions = doc.mentions ∧ reply.document.modified = doc.modified ∧
          ∀ spelling' input affected', doc.resolve spelling' = .ok name →
            (doc.edit spelling' input).answer = .ok affected' → affected' = affected) ∧
      ∀ spelling input affected, (doc.edit spelling input).answer = .ok affected →
        let after := (doc.edit spelling input).document
        let reply := after.edit spelling input
        reply.answer = .ok affected ∧ reply.document.cells = after.cells ∧
          reply.document.mentions = after.mentions ∧
          reply.document.modified = after.modified := by
  intro doc
  have h : doc.Mirrors := Mirrors.run config operations
  have hentered : doc.Entered := Entered.run config operations
  refine ⟨fun hidem name c hcell => ⟨(hentered.resolve_name hidem hcell).1, ?_⟩, ?_⟩
  · intro spelling hname
    obtain ⟨affected, hanswer, hdoc, hunique⟩ := exists_edit_input h hentered hidem hcell hname
    have hequal := Contents.beq_withoutNegativeZero (hentered.isCanonical hidem hcell)
    refine ⟨affected, hanswer, hequal, ?_, ?_, ?_, hunique⟩
    all_goals rw [hdoc]
  · intro spelling input affected hanswer
    exact edit_accepted h hanswer

/-- A formula is entered again in a sheet that was just loaded, and nothing is left to be saved. -/
theorem reenter_run_loaded :
    let doc := (new {}).run [.load {} "@version: \"default\"\nx: =a\na: =(b)"]
    doc.config.rules.IsIdempotent ∧
      doc.cells["a"]? = some (.formula ⟨[.opening, .var "b", .closing]⟩) ∧
      ∃ affected, (doc.edit "a" "=(b)").answer = .ok affected ∧
        (doc.edit "a" "=(b)").document.mentions = doc.mentions ∧
        (doc.edit "a" "=(b)").document.modified = false ∧
        ((doc.edit "a" "=(b)").document.edit "a" "=(b)").answer = .ok affected := by
  have hconfig : ((new {}).run [.load {} "@version: \"default\"\nx: =a\na: =(b)"]).config =
      {} := by
    cbv
  have hidem : ((new {}).run
      [.load {} "@version: \"default\"\nx: =a\na: =(b)"]).config.rules.IsIdempotent := by
    rw [hconfig]
    exact fun _ => rfl
  have hcell : ((new {}).run [.load {} "@version: \"default\"\nx: =a\na: =(b)"]).cells["a"]? =
      some (.formula ⟨[.opening, .var "b", .closing]⟩) := by
    cbv
  have hmodified : ((new {}).run
      [.load {} "@version: \"default\"\nx: =a\na: =(b)"]).modified = false := by
    cbv
  have hinput : (Contents.formula ⟨[.opening, .var "b", .closing]⟩).input = "=(b)" := by
    cbv
  -- both parts are used: the input of what is held, and that input a second time
  obtain ⟨hheld, hagain⟩ := reenter_run {} [.load {} "@version: \"default\"\nx: =a\na: =(b)"]
  obtain ⟨hname, hinputs⟩ := hheld hidem "a" _ hcell
  obtain ⟨affected, hanswer, -, -, hmentions, hmark, -⟩ := hinputs "a" hname
  rw [hinput] at hanswer hmentions hmark
  exact ⟨hidem, hcell, affected, hanswer, hmentions, hmark.trans hmodified,
    (hagain "a" "=(b)" affected hanswer).1⟩

end FormulaSheet.Document
