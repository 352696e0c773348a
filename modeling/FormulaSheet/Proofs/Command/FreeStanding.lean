/-
A formula by itself and the same formula in a cell.

A formula may be asked for by itself, or entered into a cell that is read then.  By itself it is
parsed without rules for names, and each variable is looked up when it is come to.  In a cell its
variables are put in normal form first, and what they are worth is computed before the formula is.
Both ways give the same number or the same error, but for the spelling of the variable in the error.

* **`AsksFor`**, **`AsksFor.parse`** — the texts that ask for a formula, and what they are parsed
  as;
* **`Document.answer_value_edit`** — the value of a formula cell right after the edit, by the values
  before it;
* **`evaluateCommand_agrees`** — both ways of asking, at any time of any run.

The edit does not disturb what the formula reads: it changes values of names that lead to the edited
cell alone, and a formula that mentions such a name is refused.
-/
import FormulaSheet.Proofs.Command.Phases
import FormulaSheet.Proofs.Document.Accepted
import FormulaSheet.Proofs.Document.Errors
import FormulaSheet.Proofs.Formula.Acceptance
import FormulaSheet.Proofs.Formula.Respelling

namespace FormulaSheet

/-! ### Texts that ask for a formula -/

theorem not_spells_equals {text : List Char} {token : Token} : ¬ Spells ('=' :: text) token := by
  intro h
  generalize hspelling : '=' :: text = spelling at h
  have hmem : '=' ∈ spelling := hspelling ▸ .head _
  cases h with
  | opening => simp at hmem
  | closing => simp at hmem
  | operator o => cases o <;> simp [Operator.symbol] at hmem
  | var hname => exact absurd (continuesName_of_mem hname hmem) (by decide)
  | number hliteral _ =>
    obtain ⟨c, tail, htext, hc⟩ := hliteral.exists_head
    rw [htext] at hspelling
    obtain ⟨rfl, -⟩ := List.cons.inj hspelling
    revert hc
    decide

theorem not_splits_equals {text : List Char} {tokens : List Token} :
    ¬ Splits ('=' :: text) tokens := by
  intro h
  generalize hwhole : '=' :: text = whole at h
  cases h with
  | blank hall => exact absurd (hall '=' (hwhole ▸ .head _)) (by decide)
  | @token blanks spelling rest token tokens hblanks hspells hrest =>
    cases blanks with
    | nil =>
      obtain ⟨c, tail, rfl⟩ := List.exists_cons_of_ne_nil hspells.ne_nil
      obtain ⟨rfl, -⟩ := List.cons.inj hwhole
      exact not_spells_equals hspells
    | cons c blanks =>
      obtain ⟨rfl, -⟩ := List.cons.inj hwhole
      exact absurd (hblanks _ (.head _)) (by decide)

namespace Command

/-- A text that asks for a formula: the formula with or without an `=` before it, and blanks
anywhere around. -/
inductive AsksFor (formula : List Char) : List Char → Prop
  | bare {before after : List Char} : (∀ c ∈ before, Text.isBlank c = true) →
      (∀ c ∈ after, Text.isBlank c = true) → AsksFor formula (before ++ (formula ++ after))
  | equals {before between after : List Char} : (∀ c ∈ before, Text.isBlank c = true) →
      (∀ c ∈ between, Text.isBlank c = true) → (∀ c ∈ after, Text.isBlank c = true) →
      AsksFor formula (before ++ '=' :: (between ++ (formula ++ after)))

section Parsing

variable {text : String} {formula : List Char} {tokens : List Token}

theorem AsksFor.splits (h : AsksFor formula text.toList) (hsplits : Splits formula tokens) :
    Splits (commandFormula text) tokens := by
  unfold commandFormula
  generalize text.toList = chars at h ⊢
  cases h with
  | bare hbefore hafter =>
    have htrim := ((hsplits.append_blank hafter).blank_append hbefore).trim
    split
    · -- a formula does not start with `=`, so here nothing more would be cut off
      next rest hequals =>
      rw [hequals] at htrim
      exact absurd htrim not_splits_equals
    · exact htrim
  | equals hbefore hbetween hafter =>
    rw [Text.trim_append_of_blank hbefore, Text.trim_cons (by decide)]
    exact ((hsplits.append_blank hafter).blank_append hbetween).trimEnd

/-- By itself a formula keeps its variables as they are written. -/
theorem AsksFor.parse (h : AsksFor formula text.toList) (hsplits : Splits formula tokens)
    (hsum : ∃ e, IsSum tokens e) : Formula.parse {} (commandFormula text) = .ok ⟨tokens⟩ := by
  refine Formula.parse_eq_ok_iff_splits.2 ⟨tokens, h.splits hsplits, hsum, fun v hv => ?_, ?_⟩
  · have hname : isVariableName v = true := hsplits.isPlain _ hv
    show (isVariableName v && true) = true
    rw [hname, Bool.and_true]
  · -- without rules a name is its own normal form
    have hnormal : ∀ token ∈ tokens, Token.normalize {} token = token := by
      intro token _
      cases token <;> rfl
    rw [List.map_congr_left hnormal, List.map_id']

end Parsing

end Command

/-! ### A formula in a cell -/

namespace Document

variable {doc : Document} {spelling formula : String} {affected : List String}

/-- A formula that is entered is parsed by the rules of the sheet, and its value is the one that the
values before the edit give. -/
theorem answer_value_edit (h : doc.Sound)
    (hanswer : (doc.edit spelling ("=" ++ formula)).answer = .ok affected) :
    ∃ f, Formula.parse doc.config.rules formula.toList = .ok f ∧
      ((doc.edit spelling ("=" ++ formula)).document.value spelling).answer =
        .ok (.ofResult (f.value fun v => (doc.valueOf v).answer.number?)) := by
  obtain ⟨name, contents, hname, hcontents, hok, hdoc⟩ := exists_accepted_of_ok h.mirrors hanswer
  have hinput : ("=" ++ formula).toList = '=' :: formula.toList := by simp
  rw [classify_of_equals hinput] at hcontents
  split at hcontents
  · next f hparse =>
    obtain rfl := Except.ok.inj hcontents
    refine ⟨f, hparse, ?_⟩
    have hafter := h.edit spelling ("=" ++ formula)
    rw [hdoc] at hafter ⊢
    have hcell : (doc.accepted name (some (.formula f)) affected).cells[name]? =
        some (.formula f) := by
      rw [accepted, getElem?_cellsWith, if_pos rfl]
    have hname' : (doc.accepted name (some (.formula f)) affected).resolve spelling = .ok name :=
      hname
    rw [answer_value hname', hafter.valueOf_eq_of_formula hcell]
    refine congrArg (fun result => Except.ok (CellValue.ofResult result)) ?_
    refine f.value_congr fun v hv => ?_
    -- a mentioned name that leads to the edited one would close a cycle
    have hunaffected : v ∉ affected := by
      rw [h.mirrors.mem_affected_iff hok]
      intro hreach
      exact hafter.mirrors.acyclic name (.head' ⟨f, hcell, hv⟩ (reaches_cellsWith_iff.2 hreach))
    rw [answer_valueOf_accepted h hok hunaffected]
  · cases hcontents

end Document

/-! ### Both ways -/

namespace Command

open Document

theorem numberOf?_eq_some_iff {doc : Document} {name : String} {x : Float} :
    numberOf? doc name = some x ↔ (doc.value name).answer = .ok (.number x) := by
  unfold numberOf?
  cases (doc.value name).answer with
  | error e => simp [Except.toOption]
  | ok value => cases value <;> simp [Except.toOption, CellValue.number?]

/-- By itself a formula finds in a variable what its cell finds in the normal form. -/
theorem number?_valueOf_normalize {doc doc' : Document} (h : doc.Sound)
    (hreads : doc.AfterReads doc') {v : String}
    (hv : doc.config.rules.accepts (doc.config.rules.normalize v) = true) :
    (doc'.valueOf (doc.config.rules.normalize v)).answer.number? = numberOf? doc v := by
  have hname : doc'.resolve v = .ok (doc.config.rules.normalize v) := by
    obtain ⟨cache, rfl⟩ := hreads.exists_cache
    exact resolve_eq_ok_iff.2 (NameRules.resolve?_eq_some_iff.2 ⟨rfl, hv⟩)
  rw [numberOf?, ← hreads.answer_value h, answer_value hname]
  rfl

/-- A formula that an accepted edit enters into a cell, at any time of any run, could be asked for
by itself just before, with or without `=` and with blanks around.  It gives the number that the
cell has right after the edit, or the same error, but for the spelling of an unresolved variable.
By itself that is the first variable of the formula, as written there, in which no number is found;
in the cell it is the normal form of that.  It makes no difference to the edit and the cell whether
the formula was asked for. -/
theorem evaluateCommand_agrees {config : SheetConfig} {operations : List Operation}
    {spelling formula text : String} {affected : List String}
    (hanswer : (((new config).run operations).edit spelling ("=" ++ formula)).answer = .ok affected)
    (htext : AsksFor formula.toList text.toList) :
    let doc := (new config).run operations
    ∃ tokens result, Token.scanAll formula.toList = .ok tokens ∧
      (evaluateCommand doc text).1 = .ok (.ofResult result) ∧
      (∀ before, before = doc ∨ before = (evaluateCommand doc text).2 →
        (before.edit spelling ("=" ++ formula)).answer = .ok affected ∧
        ((before.edit spelling ("=" ++ formula)).document.value spelling).answer =
          .ok (.ofResult (result.mapError (EvalError.normalize doc.config.rules)))) ∧
      ∀ v, result = .error (.unresolved v) → ∃ earlier later,
        Token.names tokens = earlier ++ v :: later ∧
        (∀ u ∈ earlier, ∃ x, (doc.value u).answer = .ok (.number x)) ∧
        ∀ x, (doc.value v).answer ≠ .ok (.number x) := by
  intro doc
  have h : doc.Sound := Sound.run config operations
  obtain ⟨f, hparse, -⟩ := answer_value_edit h hanswer
  obtain ⟨tokens, hscan, hfits, hnames, hf⟩ := Formula.parse_eq_ok_iff.1 hparse
  have hsum := exists_isSum_iff.2 hfits
  have hcommand := htext.parse (.of_scanAll hscan) hsum
  obtain ⟨hvalue, hreads⟩ := evaluateCommand_of_parse h (.refl h) hcommand
  refine ⟨tokens, _, hscan, hvalue, fun before hbefore => ?_, fun v hv => ?_⟩
  · have hafter : doc.AfterReads before := by
      rcases hbefore with rfl | rfl
      · exact .refl h
      · exact hreads
    have hanswer' := (hafter.answer_edit spelling ("=" ++ formula)).trans hanswer
    -- the cell has the formula in normal form, and its value by what is known before the edit
    obtain ⟨g, hparse', hvalue'⟩ := answer_value_edit hafter.sound hanswer'
    have hconfig : before.config = doc.config := by
      obtain ⟨cache, rfl⟩ := hafter.exists_cache
      rfl
    rw [hconfig] at hparse'
    obtain rfl : f = g := Except.ok.inj (hparse.symm.trans hparse')
    refine ⟨hanswer', hvalue'.trans ?_⟩
    rw [hf, Formula.value_map_normalize hsum fun v hv =>
      number?_valueOf_normalize h hafter (hnames v (Token.mem_names_iff.2 hv))]
  · obtain ⟨earlier, later, hsplit, hearlier, hnone⟩ := Formula.exists_of_unresolved hsum hv
    refine ⟨earlier, later, hsplit, fun u hu => ?_, fun x hx => ?_⟩
    · obtain ⟨x, hx⟩ := Option.ne_none_iff_exists'.1 (hearlier u hu)
      exact ⟨x, numberOf?_eq_some_iff.1 hx⟩
    · rw [numberOf?_eq_some_iff.2 hx] at hnone
      cases hnone

/-- Where names are normalized to capitals, a text in the cell `N` leaves `n` unresolved in a
formula by itself, and `N` in a cell. -/
theorem evaluateCommand_agrees_capitals :
    let doc := (new { rules := { normalize := LetterCase.upper.normalize } }).run
      [.edit "n" "note"]
    (doc.edit "a" ("=" ++ "n*m")).answer = .ok ["A"] ∧ AsksFor "n*m".toList "\t= n*m ".toList ∧
      (evaluateCommand doc "\t= n*m ").1 = .ok (.error (.unresolved "n")) ∧
      ((doc.edit "a" ("=" ++ "n*m")).document.value "a").answer =
        .ok (.error (.unresolved "N")) := by
  have hanswer : (((new { rules := { normalize := LetterCase.upper.normalize } }).run
      [.edit "n" "note"]).edit "a" ("=" ++ "n*m")).answer = .ok ["A"] := by
    cbv
  have htext : AsksFor "n*m".toList "\t= n*m ".toList := by
    have hchars : "\t= n*m ".toList = ['\t'] ++ '=' :: ([' '] ++ ("n*m".toList ++ [' '])) := by
      decide
    have hblank : ∀ c ∈ [' '], Text.isBlank c = true := List.forall_mem_singleton.2 (by decide)
    rw [hchars]
    exact .equals (List.forall_mem_singleton.2 (by decide)) hblank hblank
  have hvalue : (evaluateCommand ((new { rules := { normalize := LetterCase.upper.normalize } }).run
      [.edit "n" "note"]) "\t= n*m ").1 = .ok (.error (.unresolved "n")) := by
    cbv
  obtain ⟨tokens, result, -, hcommand, hcell, -⟩ := evaluateCommand_agrees hanswer htext
  rw [hvalue] at hcommand
  have hresult : result = .error (.unresolved "n") := by
    cases result with
    | ok x => cases hcommand
    | error e =>
      cases hcommand
      rfl
  have hnormal : ((new { rules := { normalize := LetterCase.upper.normalize } }).run
      [.edit "n" "note"]).config.rules.normalize "n" = "N" := by
    cbv
  have hafter := (hcell _ (.inl rfl)).2
  rw [hresult] at hafter
  change _ = Except.ok (CellValue.error (.unresolved (NameRules.normalize _ "n"))) at hafter
  rw [hnormal] at hafter
  exact ⟨hanswer, htext, hvalue, hafter⟩

end Command

end FormulaSheet
