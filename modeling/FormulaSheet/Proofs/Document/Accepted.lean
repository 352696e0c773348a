/-
Accepted edits.

An accepted edit answers the names whose values it may have changed.  They are the edited name and
the cells that lead to it by mentions, in an order in which they can be computed again; whatever
is not among them holds what it held, is computed if it was, and is worth what it was worth.

* **`answer_valueOf_accepted`** — an unaffected name keeps its value;
* **`affected_of_accepted`** — all of this, at any time of any run.

An unaffected name may lead to names that are mentioned and never set, but not to the edited one;
so everything it leads to is the same before and after.
-/
import FormulaSheet.Proofs.Document.Settled
import Mathlib

namespace FormulaSheet.Document

open Relation

variable {doc : Document} {name : String} {contents : Option Contents} {affected : List String}

/-- What an unaffected name leads to holds what it held. -/
theorem getElem?_cells_accepted (h : doc.Mirrors)
    (hok : (doc.mentionsWith name contents).affected name = .ok affected) {m x : String}
    (hm : m ∉ affected) (hx : ReflTransGen (Mentions doc.cells) m x) :
    (doc.accepted name contents affected).cells[x]? = doc.cells[x]? := by
  rw [h.mem_affected_iff hok] at hm
  exact getElem?_cellsWith_of_reaches hm hx

/-- An unaffected name keeps its value. -/
theorem answer_valueOf_accepted (h : doc.Sound)
    (hok : (doc.mentionsWith name contents).affected name = .ok affected) {m : String}
    (hm : m ∉ affected) :
    ((doc.accepted name contents affected).valueOf m).answer = (doc.valueOf m).answer := by
  obtain ⟨hvalue, -⟩ := valueOf_spec h.mirrors h.kept m
  obtain ⟨hvalue', -⟩ :=
    valueOf_spec (h.mirrors.accepted hok) (h.kept.accepted h.mirrors hok) m
  -- both documents hold the same wherever `m` leads, so one derivation serves in both
  exact hvalue'.unique (hvalue.of_agree fun x hx => getElem?_cells_accepted h.mirrors hok hm hx)

theorem answer_value_accepted (h : doc.Sound)
    (hok : (doc.mentionsWith name contents).affected name = .ok affected) {m spelling : String}
    (hm : m ∉ affected) (hspelling : doc.resolve spelling = .ok m) :
    ((doc.accepted name contents affected).value spelling).answer =
      (doc.value spelling).answer := by
  have hafter : (doc.accepted name contents affected).resolve spelling = .ok m := hspelling
  rw [answer_value hspelling, answer_value hafter, answer_valueOf_accepted h hok hm]

/-- An edit or a clearing that is accepted, at any time of any run, answers exactly what has to be
shown again.  The list starts with the edited name and has no name twice; it holds that name and
every cell whose formula mentions it, directly or through other formulas, by the formulas before the
edit and by those after it; and each cell comes after the listed cells that its formula mentions.
A name that is not listed holds what it held, is computed or not as it was, and has the value that
it had. -/
theorem affected_of_accepted {config : SheetConfig} {operations : List Operation}
    {spelling input name : String} {reply : Reply (Except EditError (List String))}
    {order : List String} (hname : ((new config).run operations).resolve spelling = .ok name)
    (hreply : reply = ((new config).run operations).edit spelling input ∨
      reply = ((new config).run operations).clear spelling)
    (hanswer : reply.answer = .ok order) :
    let doc := (new config).run operations
    order.head? = some name ∧ order.Nodup ∧
      (∀ m, m ∈ order ↔ m = name ∨ TransGen (Mentions doc.cells) m name) ∧
      (∀ m, m ∈ order ↔ m = name ∨ TransGen (Mentions reply.document.cells) m name) ∧
      (∀ a ∈ order, ∀ b ∈ order, Mentions reply.document.cells a b →
        order.idxOf b < order.idxOf a) ∧
      ∀ m, m ∉ order → reply.document.cells[m]? = doc.cells[m]? ∧
        reply.document.cache[m]? = doc.cache[m]? ∧
        ∀ s, doc.resolve s = .ok m → (reply.document.value s).answer = (doc.value s).answer := by
  intro doc
  have h : doc.Sound := Sound.run config operations
  -- clearing is an edit, too
  obtain ⟨input', rfl⟩ : ∃ input', reply = doc.edit spelling input' := by
    rcases hreply with hedit | hclear
    · exact ⟨input, hedit⟩
    · exact ⟨"", hclear⟩
  obtain ⟨name', contents, hname', -, hok, hdoc⟩ := exists_accepted_of_ok h.mirrors hanswer
  obtain rfl : name = name' := Except.ok.inj (hname.symm.trans hname')
  obtain ⟨hordered, hhead, -⟩ := MentionIndex.affected_ok hok
  have hmem : ∀ m, m ∈ order ↔ m = name ∨ TransGen (Mentions doc.cells) m name := by
    intro m
    rw [h.mirrors.mem_affected_iff hok, @eq_comm _ m name, ← reflTransGen_iff_eq_or_transGen]
  rw [hdoc]
  refine ⟨hhead, hordered.nodup, hmem, ?_, ?_, ?_⟩
  · -- a path to the edited name uses mentions of other cells only, which the edit leaves alone
    intro m
    show m ∈ order ↔ m = name ∨ TransGen (Mentions (cellsWith doc.cells name contents)) m name
    rw [h.mirrors.mem_affected_iff hok, @eq_comm _ m name, ← reflTransGen_iff_eq_or_transGen,
      reaches_cellsWith_iff]
  · intro a _ b hb hab
    refine hordered.idxOf_lt hb ?_
    exact (h.mirrors.accepted hok).leadsTo_iff.2 hab
  · intro m hm
    refine ⟨getElem?_cells_accepted h.mirrors hok hm .refl, ?_, ?_⟩
    · rw [accepted, getElem?_forget, if_neg hm]
    · intro s hs
      exact answer_value_accepted h hok hm hs

/-- A text takes the place of a formula that two other formulas lead to. -/
theorem affected_of_accepted_chain :
    let doc := (new {}).run [.edit "a" "=b", .edit "b" "=c"]
    doc.resolve "c" = .ok "c" ∧ (doc.edit "c" "note").answer = .ok ["c", "b", "a"] ∧
      (∀ m, m ∈ ["c", "b", "a"] ↔ m = "c" ∨ TransGen (Mentions doc.cells) m "c") ∧
      ∀ m, m ∉ ["c", "b", "a"] → ∀ s, doc.resolve s = .ok m →
        ((doc.edit "c" "note").document.value s).answer = (doc.value s).answer := by
  have hname : ((new {}).run [.edit "a" "=b", .edit "b" "=c"]).resolve "c" = .ok "c" := by
    cbv
  have hanswer : (((new {}).run [.edit "a" "=b", .edit "b" "=c"]).edit "c" "note").answer =
      .ok ["c", "b", "a"] := by
    cbv
  obtain ⟨-, -, hmem, -, -, hkeep⟩ := affected_of_accepted hname (.inl rfl) hanswer
  exact ⟨hname, hanswer, hmem, fun m hm => (hkeep m hm).2.2⟩

end FormulaSheet.Document
