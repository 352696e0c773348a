/-
The mention index mirrors the cells.

The index of a document holds a pair of names exactly if the first is a cell whose formula
mentions the second, and mentions never lead from a name back to it.  Both fail for a moment
during an edit, which replaces the mentions first and looks for a cycle then; an edit that
is refused puts the old mentions back, and with them the whole document.

* **`Document.edit_outcome`** — an edit is refused, for one of three reasons, and leaves the
  document as it was, or is accepted and replaces contents and mentions alike;
* **`Document.Mirrors.affected_isOk_iff`** — it is accepted exactly if the edited name would not
  lead to itself;
* **`Document.Mirrors.edit`** — one edit keeps both properties;
* **`Document.mentions_mirror`** — both hold after every run.

A cycle that was not there before passes through the edited name, for only its mentions are new,
and the walk from that name over the mentioners goes around it.
-/
import FormulaSheet.Proofs.Document.Run
import FormulaSheet.Proofs.Mention.Pairs
import FormulaSheet.Proofs.Mention.Walk

namespace FormulaSheet

open Relation

namespace Document

/-- A cell holds a formula that mentions a name. -/
def Mentions (cells : Cells) (a b : String) : Prop :=
  ∃ f, cells[a]? = some (.formula f) ∧ b ∈ f.mentions

/-- The pairs of an index are the mentions of the cells, and none of them leads back. -/
structure Mirrors (doc : Document) : Prop where
  represents : ∃ pairs, doc.mentions.Represents pairs ∧
    ∀ a b, (a, b) ∈ pairs ↔ Mentions doc.cells a b
  acyclic : ∀ a, ¬ TransGen (Mentions doc.cells) a a

/-! ### Cycles through one name -/

section Cycles

variable {r r' : String → String → Prop} {name : String}

/-- A path either uses no step out of a name, or passes through it. -/
theorem transGen_or_through {a b : String} (hkeep : ∀ x y, x ≠ name → r' x y → r x y)
    (h : TransGen r' a b) :
    TransGen r a b ∨ ReflTransGen r' a name ∧ TransGen r' name b := by
  induction h with
  | @single b hab =>
    by_cases ha : a = name
    · subst ha
      exact .inr ⟨.refl, .single hab⟩
    · exact .inl (.single (hkeep a b ha hab))
  | @tail b c hab hbc ih =>
    rcases ih with ih | ⟨hto, hfrom⟩
    · -- a last step out of the name makes the path pass through it; any other is not new
      by_cases hb : b = name
      · subst hb
        exact .inr ⟨hab.to_reflTransGen, .single hbc⟩
      · exact .inl (ih.tail (hkeep b c hb hbc))
    · exact .inr ⟨hto, hfrom.tail hbc⟩

/-- If only the steps out of one name change, a new cycle passes through that name. -/
theorem acyclic_of_not_transGen_self (hkeep : ∀ x y, x ≠ name → r' x y → r x y)
    (hold : ∀ a, ¬ TransGen r a a) (hname : ¬ TransGen r' name name) (a : String) :
    ¬ TransGen r' a a := by
  intro ha
  rcases transGen_or_through hkeep ha with hcycle | ⟨hto, hfrom⟩
  · exact hold a hcycle
  · exact hname (TransGen.trans_left hfrom hto)

end Cycles

/-! ### One edit -/

/-- The cells after an accepted edit. -/
def cellsWith (cells : Cells) (name : String) (contents : Option Contents) : Cells :=
  contents.elim (cells.erase name) (cells.insert name)

theorem getElem?_cellsWith (cells : Cells) (name : String) (contents : Option Contents)
    (a : String) :
    (cellsWith cells name contents)[a]? = if a = name then contents else cells[a]? := by
  cases contents with
  | none => simp [cellsWith, Std.ExtTreeMap.getElem?_erase, eq_comm (a := a)]
  | some c => simp [cellsWith, Std.ExtTreeMap.getElem?_insert, eq_comm (a := a)]

theorem mentions_iff {cells : Cells} {a b : String} :
    Mentions cells a b ↔ b ∈ cells[a]?.elim [] Contents.mentions := by
  unfold Mentions
  match cells[a]? with
  | none => simp
  | some (.number x) => simp [Contents.mentions]
  | some (.text s) => simp [Contents.mentions]
  | some (.formula f) => simp [Contents.mentions]

theorem mentions_iff_of_formula {cells : Cells} {a b : String} {f : Formula}
    (hcell : cells[a]? = some (.formula f)) : Mentions cells a b ↔ b ∈ f.mentions := by
  rw [mentions_iff, hcell]
  rfl

/-- An edit replaces the mentions of the edited name alone. -/
theorem mentions_cellsWith_iff {cells : Cells} {name : String} {contents : Option Contents}
    {a b : String} : Mentions (cellsWith cells name contents) a b ↔
      if a = name then b ∈ contents.elim [] Contents.mentions else Mentions cells a b := by
  rw [mentions_iff, getElem?_cellsWith]
  by_cases ha : a = name
  · rw [if_pos ha, if_pos ha]
  · rw [if_neg ha, if_neg ha, mentions_iff]

/-- The index while it is looked for a cycle. -/
def mentionsWith (doc : Document) (name : String) (contents : Option Contents) : MentionIndex :=
  doc.mentions.replaceMentioned name (contents.elim [] Contents.mentions)

/-- The document after an accepted edit. -/
def accepted (doc : Document) (name : String) (contents : Option Contents)
    (affected : List String) : Document :=
  { doc with
    cells := cellsWith doc.cells name contents
    cache := forget doc.cache affected
    mentions := doc.mentionsWith name contents
    modified := doc.modified || !(doc.cells[name]? == contents) }

theorem put_of_error {doc : Document} {pairs : Finset (String × String)}
    (h : doc.mentions.Represents pairs) {name : String} {contents : Option Contents} {cycle : Cycle}
    (hcycle : (doc.mentionsWith name contents).affected name = .error cycle) :
    (doc.put name contents).answer = .error (.cycle cycle) ∧
      (doc.put name contents).document = doc := by
  unfold mentionsWith at hcycle
  -- putting the old mentions back undoes the replacement
  simp only [put, hcycle, h.restore, and_self]

theorem put_of_ok {doc : Document} {name : String} {contents : Option Contents}
    {affected : List String} (hok : (doc.mentionsWith name contents).affected name = .ok affected) :
    (doc.put name contents).answer = .ok affected ∧
      (doc.put name contents).document = doc.accepted name contents affected := by
  unfold mentionsWith at hok
  simp only [put, hok, accepted, mentionsWith, cellsWith, and_self]

theorem resolve_eq_ok_iff {doc : Document} {spelling name : String} :
    doc.resolve spelling = .ok name ↔ doc.config.rules.resolve? spelling = some name := by
  unfold resolve
  cases doc.config.rules.resolve? spelling <;> simp

theorem eq_badName_of_resolve {doc : Document} {spelling : String} {e : EditError}
    (h : doc.resolve spelling = .error e) : e = .badName spelling := by
  unfold resolve at h
  split at h
  · cases h
  · exact (Except.error.inj h).symm

theorem exists_eq_badFormula_of_classify {config : SheetConfig} {input : String} {e : EditError}
    (h : classify config input = .error e) : ∃ defect, e = .badFormula defect := by
  unfold classify at h
  split at h
  · cases h
  · split at h
    · cases h
    · split at h
      · split at h
        · cases h
        · next defect _ => exact ⟨defect, (Except.error.inj h).symm⟩
      · cases h

/-- What an edit comes to: what it answers, and the document after it. -/
inductive Outcome (doc : Document) (spelling input : String) :
    Except EditError (List String) → Document → Prop
  | badName : doc.resolve spelling = .error (.badName spelling) →
      Outcome doc spelling input (.error (.badName spelling)) doc
  | badFormula {name : String} {defect : FormulaError} : doc.resolve spelling = .ok name →
      classify doc.config input = .error (.badFormula defect) →
      Outcome doc spelling input (.error (.badFormula defect)) doc
  | cycle {name : String} {contents : Option Contents} {cycle : Cycle} :
      doc.resolve spelling = .ok name → classify doc.config input = .ok contents →
      (doc.mentionsWith name contents).affected name = .error cycle →
      Outcome doc spelling input (.error (.cycle cycle)) doc
  | accepted {name : String} {contents : Option Contents} {affected : List String} :
      doc.resolve spelling = .ok name → classify doc.config input = .ok contents →
      (doc.mentionsWith name contents).affected name = .ok affected →
      Outcome doc spelling input (.ok affected) (doc.accepted name contents affected)

/-- An edit of a name and contents that are good puts the contents there, or meets a cycle. -/
theorem edit_eq_put {doc : Document} {spelling input name : String} {contents : Option Contents}
    (hname : doc.resolve spelling = .ok name)
    (hcontents : classify doc.config input = .ok contents) :
    doc.edit spelling input = doc.put name contents := by
  unfold edit
  rw [hname]
  dsimp only
  rw [hcontents]

theorem edit_outcome {doc : Document} (h : doc.Mirrors) (spelling input : String) :
    doc.Outcome spelling input (doc.edit spelling input).answer
      (doc.edit spelling input).document := by
  cases hname : doc.resolve spelling with
  | error e =>
    obtain rfl := eq_badName_of_resolve hname
    simp only [edit, hname]
    exact .badName hname
  | ok name =>
    cases hcontents : classify doc.config input with
    | error e =>
      obtain ⟨defect, rfl⟩ := exists_eq_badFormula_of_classify hcontents
      simp only [edit, hname, hcontents]
      exact .badFormula hname hcontents
    | ok contents =>
      rw [edit_eq_put hname hcontents]
      obtain ⟨pairs, hpairs, -⟩ := h.represents
      cases hresult : (doc.mentionsWith name contents).affected name with
      | error cycle =>
        obtain ⟨hanswer, hdoc⟩ := put_of_error hpairs hresult
        rw [hanswer, hdoc]
        exact .cycle hname hcontents hresult
      | ok affected =>
        obtain ⟨hanswer, hdoc⟩ := put_of_ok hresult
        rw [hanswer, hdoc]
        exact .accepted hname hcontents hresult

/-- An edit leaves the document as it was, or is an accepted edit of a cell. -/
theorem edit_cases {doc : Document} (h : doc.Mirrors) (spelling input : String) :
    (doc.edit spelling input).document = doc ∨
      ∃ name contents affected, doc.resolve spelling = .ok name ∧
        classify doc.config input = .ok contents ∧
        (doc.mentionsWith name contents).affected name = .ok affected ∧
        (doc.edit spelling input).document = doc.accepted name contents affected := by
  have houtcome := edit_outcome h spelling input
  -- the two indices become variables, which `cases` asks for
  generalize (doc.edit spelling input).answer = answer at houtcome
  generalize (doc.edit spelling input).document = after at houtcome ⊢
  cases houtcome with
  | badName _ => exact .inl rfl
  | badFormula _ _ => exact .inl rfl
  | cycle _ _ _ => exact .inl rfl
  | accepted hname hcontents hok => exact .inr ⟨_, _, _, hname, hcontents, hok, rfl⟩

/-- What an edit that is accepted comes to. -/
theorem exists_accepted_of_ok {doc : Document} (h : doc.Mirrors) {spelling input : String}
    {affected : List String} (hanswer : (doc.edit spelling input).answer = .ok affected) :
    ∃ name contents, doc.resolve spelling = .ok name ∧
      classify doc.config input = .ok contents ∧
      (doc.mentionsWith name contents).affected name = .ok affected ∧
      (doc.edit spelling input).document = doc.accepted name contents affected := by
  have houtcome := edit_outcome h spelling input
  rw [hanswer] at houtcome
  generalize (doc.edit spelling input).document = after at houtcome ⊢
  cases houtcome with
  | accepted hname hcontents hok => exact ⟨_, _, hname, hcontents, hok, rfl⟩

/-! ### The mirror -/

namespace Mirrors

variable {doc : Document}

theorem new (config : SheetConfig) : (new config).Mirrors where
  represents := ⟨∅, .empty, fun a b => by simp [Document.new, Mentions]⟩
  acyclic a ha := by
    obtain ⟨b, hab, -⟩ := TransGen.head'_iff.1 ha
    simp [Document.new, Mentions] at hab

theorem congr {doc' : Document} (h : doc.Mirrors) (hcells : doc'.cells = doc.cells)
    (hmentions : doc'.mentions = doc.mentions) : doc'.Mirrors where
  represents := by
    rw [hcells, hmentions]
    exact h.represents
  acyclic := by
    rw [hcells]
    exact h.acyclic

theorem contains_iff (h : doc.Mirrors) {a b : String} :
    doc.mentions.contains a b = true ↔ Mentions doc.cells a b := by
  obtain ⟨pairs, hpairs, hmem⟩ := h.represents
  rw [hpairs.contains_iff, hmem]

theorem leadsTo_iff (h : doc.Mirrors) {a b : String} :
    doc.mentions.LeadsTo b a ↔ Mentions doc.cells a b := by
  obtain ⟨pairs, hpairs, hmem⟩ := h.represents
  rw [MentionIndex.LeadsTo, hpairs.mem_mentioners_iff, hmem]

/-- The index is determined by the mentions of the cells. -/
theorem mentions_eq {doc' : Document} (h : doc.Mirrors) (h' : doc'.Mirrors)
    (hsame : ∀ a b, Mentions doc.cells a b ↔ Mentions doc'.cells a b) :
    doc.mentions = doc'.mentions := by
  obtain ⟨pairs, hpairs, hmem⟩ := h.represents
  obtain ⟨pairs', hpairs', hmem'⟩ := h'.represents
  -- the pairs of both indices are the same set, and a set of pairs has one index
  have heq : pairs = pairs' := by
    ext ⟨a, b⟩
    rw [hmem, hmem', hsame]
  subst heq
  exact hpairs.eq hpairs'

/-- The new mentions of one name, in the cells and in the index. -/
theorem represents_mentionsWith (h : doc.Mirrors) (name : String) (contents : Option Contents) :
    ∃ pairs, (doc.mentionsWith name contents).Represents pairs ∧
      ∀ a b, (a, b) ∈ pairs ↔ Mentions (cellsWith doc.cells name contents) a b := by
  obtain ⟨pairs, hpairs, hmem⟩ := h.represents
  refine ⟨_, hpairs.replaceMentioned name _, fun a b => ?_⟩
  rw [mentions_cellsWith_iff, Finset.mem_union, Finset.mem_filter, MentionIndex.mem_image_pair,
    hmem]
  -- the edited name has the mentions of its new contents, the others keep theirs
  by_cases ha : a = name
  · simp [ha]
  · simp [ha]

/-- The walk follows the new mentions the other way. -/
theorem leadsTo_mentionsWith (h : doc.Mirrors) (name : String) (contents : Option Contents) :
    (doc.mentionsWith name contents).LeadsTo =
      Function.swap (Mentions (cellsWith doc.cells name contents)) := by
  obtain ⟨pairs, hpairs, hmem⟩ := h.represents_mentionsWith name contents
  funext b a
  exact propext (hpairs.mem_mentioners_iff.trans (hmem a b))

/-- Only the steps out of the edited name are new, so a new cycle passes through it. -/
theorem acyclic_cellsWith (h : doc.Mirrors) {name : String} {contents : Option Contents}
    (hname : ¬ TransGen (Mentions (cellsWith doc.cells name contents)) name name) (a : String) :
    ¬ TransGen (Mentions (cellsWith doc.cells name contents)) a a := by
  refine acyclic_of_not_transGen_self ?_ h.acyclic hname a
  intro x y hx hxy
  rwa [mentions_cellsWith_iff, if_neg hx] at hxy

/-- An edit is accepted exactly if the edited name would not lead to itself. -/
theorem affected_isOk_iff (h : doc.Mirrors) {name : String} {contents : Option Contents} :
    (∃ affected, (doc.mentionsWith name contents).affected name = .ok affected) ↔
      ¬ TransGen (Mentions (cellsWith doc.cells name contents)) name name := by
  rw [MentionIndex.affected_isOk_iff, h.leadsTo_mentionsWith]
  constructor
  · -- the edited name is the first that the walk looks at
    intro hno hcycle
    exact hno name .refl (transGen_swap.2 hcycle)
  · intro hname x _ hx
    exact h.acyclic_cellsWith hname x (transGen_swap.1 hx)

theorem accepted (h : doc.Mirrors) {name : String} {contents : Option Contents}
    {affected : List String} (hok : (doc.mentionsWith name contents).affected name = .ok affected) :
    (doc.accepted name contents affected).Mirrors where
  represents := h.represents_mentionsWith name contents
  acyclic := h.acyclic_cellsWith (h.affected_isOk_iff.1 ⟨affected, hok⟩)

theorem edit (h : doc.Mirrors) (spelling input : String) :
    (doc.edit spelling input).document.Mirrors := by
  rcases edit_cases h spelling input with hdoc | ⟨name, contents, affected, -, -, hok, hdoc⟩
  · rw [hdoc]
    exact h
  · rw [hdoc]
    exact h.accepted hok

theorem value (h : doc.Mirrors) (spelling : String) : (doc.value spelling).document.Mirrors := by
  obtain ⟨cache, hdoc⟩ := doc.document_value spelling
  rw [hdoc]
  exact h.congr rfl rfl

theorem saved (h : doc.Mirrors) : doc.saved.Mirrors :=
  h.congr rfl rfl

theorem run (config : SheetConfig) (operations : List Operation) :
    ((Document.new config).run operations).Mirrors :=
  run_invariant new (fun spelling input h => h.edit spelling input)
    (fun spelling h => h.value spelling) saved config operations

end Mirrors

/-- After every run the index holds the pairs of a cell and a name that its formula mentions, in
both directions, and no others; and no name reaches itself through them. -/
theorem mentions_mirror (config : SheetConfig) (operations : List Operation) :
    let doc := (new config).run operations
    (∀ a b, doc.mentions.contains a b = true ↔
        ∃ f, doc.cells[a]? = some (.formula f) ∧ b ∈ f.mentions) ∧
      (∀ a b, b ∈ doc.mentions.mentioned a ↔ doc.mentions.contains a b = true) ∧
      (∀ a b, a ∈ doc.mentions.mentioners b ↔ doc.mentions.contains a b = true) ∧
      ∀ a, ¬ TransGen (fun a b => doc.mentions.contains a b = true) a a := by
  intro doc
  have h : doc.Mirrors := Mirrors.run config operations
  obtain ⟨pairs, hpairs, -⟩ := h.represents
  refine ⟨fun a b => h.contains_iff, fun a b => ?_, fun a b => ?_, fun a ha => ?_⟩
  · rw [hpairs.mem_mentioned_iff, hpairs.contains_iff]
  · rw [hpairs.mem_mentioners_iff, hpairs.contains_iff]
  · exact h.acyclic a (TransGen.mono (fun x y hxy => h.contains_iff.1 hxy) _ _ ha)

end Document

end FormulaSheet
