/-
Names that a sheet hands out.

A name comes into a sheet as the name of an edit or as a variable of a formula, and goes out of it
again by many ways: as the name of a cell, in a list of mentions, as something that an edit affects,
on a cycle, or in the value of a cell.  Whatever goes out came in, and it came in as an accepted
normal form; so where normal forms are their own normal forms, it means the cell that it was handed
out for, wherever it is used again.

* **`Document.HandsOut`** — the ways on which a sheet hands out a name;
* **`Document.Addresses`** — a name means its own cell in everything that can be asked of it;
* **`Document.resolve_of_reaches`** — cells, what they mention, and what leads to them have names
  that mean themselves;
* **`Document.addresses_of_handsOut`** — so has all that is handed out, and the listed cells can
  always be printed.
-/
import FormulaSheet.Proofs.Command.Phases
import FormulaSheet.Proofs.Document.Errors
import FormulaSheet.Proofs.Document.Refused

namespace FormulaSheet.Document

open Relation

variable {doc : Document} {name spelling : String}

/-- The ways on which a sheet hands out a name. -/
inductive HandsOut (doc : Document) : String → Prop
  | cell {name : String} {c : Contents} : doc.cells[name]? = some c → HandsOut doc name
  | listed {name : String} : name ∈ doc.names → HandsOut doc name
  | mentioned {spelling name : String} {names : List String} :
      doc.mentioned spelling = .ok names → name ∈ names → HandsOut doc name
  | mentioner {spelling name : String} {names : List String} :
      doc.mentioners spelling = .ok names → name ∈ names → HandsOut doc name
  | affected {spelling input name : String} {names : List String} :
      (doc.edit spelling input).answer = .ok names → name ∈ names → HandsOut doc name
  | cycle {spelling input name : String} {cycle : Cycle} :
      (doc.edit spelling input).answer = .error (.cycle cycle) → name ∈ cycle.path →
      HandsOut doc name
  | unresolved {spelling name : String} :
      (doc.value spelling).answer = .ok (.error (.unresolved name)) → HandsOut doc name

/-- A name means its own cell, in everything that can be asked of it. -/
structure Addresses (doc : Document) (name : String) : Prop where
  normal : doc.config.rules.normalize name = name
  accepted : doc.config.rules.accepts name = true
  contents : doc.contents name = .ok doc.cells[name]?
  value : (doc.value name).answer = .ok (doc.valueOf name).answer
  mentioned : doc.mentioned name = .ok (doc.mentions.mentioned name)
  mentioners : doc.mentioners name = .ok (doc.mentions.mentioners name)
  put : ∀ {input contents}, classify doc.config input = .ok contents →
    doc.edit name input = doc.put name contents
  edit : ∀ input spelling, (doc.edit name input).answer ≠ .error (.badName spelling)

/-! ### Names that mean themselves -/

theorem answer_put_ne_badName (doc : Document) (name : String) (contents : Option Contents)
    (spelling : String) : (doc.put name contents).answer ≠ .error (.badName spelling) := by
  intro h
  unfold put at h
  dsimp only at h
  split at h <;> cases h

theorem addresses_of_resolve (h : doc.resolve name = .ok name) : doc.Addresses name := by
  obtain ⟨hnormal, haccepts⟩ := NameRules.resolve?_eq_some_iff.1 (resolve_eq_ok_iff.1 h)
  refine ⟨hnormal, haccepts, ?_, answer_value h, ?_, ?_, edit_eq_put h, ?_⟩
  · rw [Document.contents, h]
    rfl
  · rw [Document.mentioned, h]
    rfl
  · rw [Document.mentioners, h]
    rfl
  · intro input spelling hedit
    -- an input that cannot be entered is refused for its formula
    cases hcontents : classify doc.config input with
    | ok contents =>
      rw [edit_eq_put h hcontents] at hedit
      exact answer_put_ne_badName doc name contents spelling hedit
    | error e =>
      obtain ⟨defect, rfl⟩ := exists_eq_badFormula_of_classify hcontents
      unfold Document.edit at hedit
      rw [h, hcontents] at hedit
      cases hedit

theorem resolve_resolve (hidem : doc.config.rules.IsIdempotent)
    (h : doc.resolve spelling = .ok name) : doc.resolve name = .ok name := by
  obtain ⟨rfl, haccepts⟩ := NameRules.resolve?_eq_some_iff.1 (resolve_eq_ok_iff.1 h)
  exact resolve_eq_ok_iff.2 (NameRules.resolve?_eq_some_iff.2 ⟨hidem spelling, haccepts⟩)

section Entered

variable (hentered : doc.Entered) (hidem : doc.config.rules.IsIdempotent)

include hentered hidem

/-- What a cell mentions means itself, whether or not it is a cell. -/
theorem resolve_of_mentions {a b : String} (hab : Mentions doc.cells a b) :
    doc.resolve b = .ok b := by
  obtain ⟨f, hcell, hb⟩ := hab
  have hcanonical : f.IsCanonical doc.config.rules := hentered.isCanonical hidem hcell
  obtain ⟨haccepts, hnormal⟩ := hcanonical.names b (Formula.mem_mentions_iff.1 hb)
  exact resolve_eq_ok_iff.2 (NameRules.resolve?_eq_some_iff.2 ⟨hnormal, haccepts⟩)

/-- What leads to a name that means itself, means itself. -/
theorem resolve_of_reaches {a b : String} (hab : ReflTransGen (Mentions doc.cells) a b)
    (hb : doc.resolve b = .ok b) : doc.resolve a = .ok a := by
  -- if the chain has a first step, it starts in a cell
  cases hab using ReflTransGen.head_induction_on with
  | refl => exact hb
  | head hac _ =>
    obtain ⟨f, hcell, -⟩ := hac
    exact (hentered.resolve_name hidem hcell).1

end Entered

/-! ### What is handed out -/

/-- What is asked of a spelling is asked of the name that it means. -/
theorem exists_resolve_of_asked {α : Type} {g : String → α} {y : α}
    (h : (doc.resolve spelling >>= fun a => pure (g a)) = .ok y) :
    ∃ a, doc.resolve spelling = .ok a ∧ y = g a := by
  cases ha : doc.resolve spelling with
  | error e =>
    rw [ha] at h
    cases h
  | ok a =>
    rw [ha] at h
    exact ⟨a, rfl, (Except.ok.inj h).symm⟩

/-- Every name on a cycle that an edit meets leads to the edited name. -/
theorem Mirrors.reaches_of_cycle (h : doc.Mirrors) {contents : Option Contents} {cycle : Cycle}
    (hcycle : (doc.mentionsWith name contents).affected name = .error cycle) {x : String}
    (hx : x ∈ cycle.path) : ReflTransGen (Mentions doc.cells) x name := by
  obtain ⟨-, hreached, -⟩ := MentionIndex.affected_error hcycle
  have hleads := hreached x hx
  rwa [h.leadsTo_mentionsWith, reflTransGen_swap, reaches_cellsWith_iff] at hleads

theorem Sound.mentions_of_unresolved (h : doc.Sound) (hentered : doc.Entered) {a : String}
    (ha : (doc.valueOf a).answer = .error (.unresolved name)) : Mentions doc.cells a name := by
  obtain ⟨hvalue, -⟩ := valueOf_spec h.mirrors h.kept a
  rw [ha] at hvalue
  generalize hresult : CellValue.error (.unresolved name) = result at hvalue
  -- only a formula has such a value, and the error names one of its own variables
  cases hvalue with
  | empty _ => cases hresult
  | number _ => cases hresult
  | text _ => cases hresult
  | formula look hcell _ =>
    obtain ⟨result, hofResult, houtcome⟩ := h.outcome_of_formula hentered hcell
    rw [ha] at hofResult
    cases houtcome with
    | number _ => cases hofResult
    | divisionByZero => cases hofResult
    | unresolved hmentioned _ =>
      cases hofResult
      exact ⟨_, hcell, hmentioned⟩

theorem HandsOut.resolve (h : doc.HandsOut name) (hsound : doc.Sound) (hentered : doc.Entered)
    (hidem : doc.config.rules.IsIdempotent) : doc.resolve name = .ok name := by
  have hmirrors : doc.Mirrors := hsound.mirrors
  obtain ⟨pairs, hpairs, hmem⟩ := hmirrors.represents
  cases h with
  | cell hcell => exact (hentered.resolve_name hidem hcell).1
  | listed hname =>
    obtain ⟨c, hcell⟩ := mem_names_iff.1 hname
    exact (hentered.resolve_name hidem hcell).1
  | mentioned hnames hname =>
    obtain ⟨asked, -, rfl⟩ := exists_resolve_of_asked (g := doc.mentions.mentioned) hnames
    exact resolve_of_mentions hentered hidem ((hmem _ _).1 (hpairs.mem_mentioned_iff.1 hname))
  -- mentioners, affected cells and cycles lead to the name that was asked for
  | mentioner hnames hname =>
    obtain ⟨asked, hasked, rfl⟩ := exists_resolve_of_asked (g := doc.mentions.mentioners) hnames
    refine resolve_of_reaches hentered hidem (.single ?_) (resolve_resolve hidem hasked)
    exact (hmem _ _).1 (hpairs.mem_mentioners_iff.1 hname)
  | affected hanswer hname =>
    obtain ⟨edited, contents, hedited, -, hok, -⟩ := exists_accepted_of_ok hmirrors hanswer
    refine resolve_of_reaches hentered hidem ?_ (resolve_resolve hidem hedited)
    exact (hmirrors.mem_affected_iff hok).1 hname
  | cycle hanswer hname =>
    obtain ⟨edited, contents, hedited, -, hcycle⟩ := exists_affected_of_cycle hmirrors hanswer
    refine resolve_of_reaches hentered hidem ?_ (resolve_resolve hidem hedited)
    exact hmirrors.reaches_of_cycle hcycle hname
  | @unresolved spelling _ hanswer =>
    cases hresolve : doc.resolve spelling with
    | error e =>
      unfold Document.value at hanswer
      rw [hresolve] at hanswer
      cases hanswer
    | ok a =>
      rw [answer_value hresolve] at hanswer
      exact resolve_of_mentions hentered hidem
        (hsound.mentions_of_unresolved hentered (Except.ok.inj hanswer))

/-- At any time of any run, a name that the sheet hands out, on whatever way, is its own normal form
and is accepted; and it means its own cell in everything that is asked of the sheet, then or later
under the same configuration.  In particular all listed cells are printed, whatever has been printed
before. -/
theorem addresses_of_handsOut {config : SheetConfig} {operations : List Operation}
    (hidem : ((new config).run operations).config.rules.IsIdempotent) :
    let doc := (new config).run operations
    (∀ name, doc.HandsOut name → ∀ later : Document, later.config = doc.config →
      later.Addresses name) ∧
      ∀ world : Command.World, ∃ doc' err,
        Id.run ((Command.printCells Command.World.host doc doc.names).run.run world) =
          (.ok doc', { world with out := world.out ++ Command.cellsText doc doc.names, err }) := by
  intro doc
  have hsound : doc.Sound := Sound.run config operations
  have hentered : doc.Entered := Entered.run config operations
  refine ⟨?_, ?_⟩
  · intro name hname later hconfig
    refine addresses_of_resolve (resolve_eq_ok_iff.2 ?_)
    rw [hconfig]
    exact resolve_eq_ok_iff.1 (hname.resolve hsound hentered hidem)
  · intro world
    have hnames : ∀ name ∈ doc.names, doc.resolve name = .ok name := fun name hname =>
      HandsOut.resolve (.listed hname) hsound hentered hidem
    obtain ⟨result, text, err, hrun, rfl, doc', hresult, -⟩ :=
      Command.does_printCells world.files hsound (.refl hsound) hnames world rfl
    cases result with
    | error causes => cases hresult
    | ok printed => exact ⟨printed, err, hrun⟩

/-- Names in capital letters: a cell whose name was entered in small letters, a name that it
mentions and that is no cell, and both on the cycle that an edit would close. -/
theorem addresses_of_handsOut_upper :
    let doc := (new { rules := { normalize := LetterCase.upper.normalize } }).run
      [.edit "a" "=b"]
    doc.config.rules.IsIdempotent ∧ (doc.edit "b" "=a").answer = .error (.cycle ⟨["B", "A", "B"]⟩) ∧
      doc.Addresses "A" ∧ doc.Addresses "B" := by
  have hconfig : ((new { rules := { normalize := LetterCase.upper.normalize } }).run
      [.edit "a" "=b"]).config = { rules := { normalize := LetterCase.upper.normalize } } := by
    simp [run, perform, new]
  have hidem : ((new { rules := { normalize := LetterCase.upper.normalize } }).run
      [.edit "a" "=b"]).config.rules.IsIdempotent := by
    rw [hconfig]
    exact LetterCase.normalize_normalize .upper
  have hcycle : (((new { rules := { normalize := LetterCase.upper.normalize } }).run
      [.edit "a" "=b"]).edit "b" "=a").answer = .error (.cycle ⟨["B", "A", "B"]⟩) := by
    cbv
  obtain ⟨hall, -⟩ := addresses_of_handsOut hidem
  exact ⟨hidem, hcycle, hall "A" (.cycle hcycle (by decide)) _ rfl,
    hall "B" (.cycle hcycle (by decide)) _ rfl⟩

end FormulaSheet.Document
