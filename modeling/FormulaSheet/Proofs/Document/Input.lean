/-
Contents are made again from their own input.

Whatever an input makes a cell hold is written as an input that makes it hold the same again, up to
the sign of zero.  That rests on what cells can hold at all: numbers that are finite, texts that are
neither numbers nor formulas nor empty, and formulas whose variables are in normal form.

* **`Contents.IsCanonical`** — what a cell can hold, if normal forms are their own normal forms;
* **`Document.classified`**, **`Document.classify_of_equals`** — what an input comes to;
* **`Document.isCanonical_of_classify`** — an input makes a cell hold nothing else;
* **`Contents.classify_input`** — the input of contents makes a cell hold them;
* **`Document.Entered`** — all cells of a document are held under names, and hold contents, that
  were entered.
-/
import FormulaSheet.Proofs.Document.Mirror
import FormulaSheet.Proofs.Formula.Canonical

namespace FormulaSheet

open Text (Stops)

/-- Normal forms are their own normal forms. -/
def NameRules.IsIdempotent (rules : NameRules) : Prop :=
  ∀ s, rules.normalize (rules.normalize s) = rules.normalize s

namespace Contents

/-- Contents with no sign at zero. -/
def withoutNegativeZero : Contents → Contents
  | number x => number (Number.withoutNegativeZero x)
  | c => c

/-- What a cell can hold. -/
def IsCanonical (config : SheetConfig) : Contents → Prop
  | number x => x.isFinite = true
  | text s => Document.classify config s = .ok (some (text s))
  | formula f => f.IsCanonical config.rules

end Contents

/-- What starts with `=` or a quote is no number. -/
theorem readFinite?_of_mark {c : Char} (hc : c = '=' ∨ c = '"') (rest : List Char) :
    Number.readFinite? (c :: rest) = none := by
  have hscan : Number.Numeral.scan? (c :: rest) = none := by
    rcases hc with rfl | rfl <;>
      simp [Number.Numeral.scan?, Number.Numeral.scanDigits?, Char.isDigit]
  -- a word for infinity or no number starts with a letter
  have hword : ∀ word : String, word.toList.head? ≠ some '=' → word.toList.head? ≠ some '"' →
      String.ofList ((c :: rest).map Char.toLower) ≠ word := by
    rintro word hequals hquote rfl
    rcases hc with rfl | rfl
    · exact hequals (by simp)
    · exact hquote (by simp)
  have hread : Number.read? (c :: rest) = none := by
    have hunsigned : Number.read? (c :: rest) = Number.readUnsigned? false (c :: rest) := by
      rcases hc with rfl | rfl <;> rfl
    rw [hunsigned]
    simp only [Number.readUnsigned?, hscan]
    split
    · next heq => exact absurd heq (hword _ (by decide) (by decide))
    · next heq => exact absurd heq (hword _ (by decide) (by decide))
    · next heq => exact absurd heq (hword _ (by decide) (by decide))
    · rfl
  rw [Number.readFinite?, hread]
  rfl

namespace Document

variable {config : SheetConfig} {input : String} {c : Contents}

/-- What an input comes to: nothing clears a cell, what starts with `=` is a formula or else a
defect, and all else is a finite number or a text. -/
inductive Classified (config : SheetConfig) (input : String) :
    Except EditError (Option Contents) → Prop
  | clear : input.toList = [] → Classified config input (.ok none)
  | formula {rest : List Char} {f : Formula} : input.toList = '=' :: rest →
      Formula.parse config.rules rest = .ok f → Classified config input (.ok (some (.formula f)))
  | badFormula {rest : List Char} {defect : FormulaError} : input.toList = '=' :: rest →
      Formula.parse config.rules rest = .error defect →
      Classified config input (.error (.badFormula defect))
  | number {x : Float} : (∀ rest, input.toList ≠ '=' :: rest) → x.isFinite = true →
      Classified config input (.ok (some (.number x)))
  | text : (∀ rest, input.toList ≠ '=' :: rest) → Classified config input (.ok (some (.text input)))

theorem classified (config : SheetConfig) (input : String) :
    Classified config input (classify config input) := by
  unfold classify
  split
  · next hnil => exact .clear hnil
  · next first rest hinput =>
    split
    · next x hx =>
      refine .number (fun rest' heq => ?_) (Option.filter_eq_some_iff.1 hx).2
      -- the equals sign stays when blanks are cut, and starts no number
      obtain ⟨rfl, -⟩ := List.cons.inj (hinput.symm.trans heq)
      rw [Text.trim_cons (by decide), readFinite?_of_mark (.inl rfl)] at hx
      cases hx
    · split
      · next hfirst =>
        rw [hfirst] at hinput
        split
        · next f hf => exact .formula hinput hf
        · next defect hdefect => exact .badFormula hinput hdefect
      · next hfirst =>
        refine .text fun rest' heq => hfirst ?_
        exact (List.cons.inj (hinput.symm.trans heq)).1

/-- What starts with `=` is what the rest is parsed as. -/
theorem classify_of_equals {rest : List Char} (hinput : input.toList = '=' :: rest) :
    classify config input = match Formula.parse config.rules rest with
      | .ok f => .ok (some (.formula f))
      | .error defect => .error (.badFormula defect) := by
  have hclassified := classified config input
  generalize classify config input = result at hclassified ⊢
  cases hclassified with
  | clear hnil =>
    rw [hnil] at hinput
    cases hinput
  | formula hinput' hf =>
    obtain ⟨-, rfl⟩ := List.cons.inj (hinput.symm.trans hinput')
    rw [hf]
  | badFormula hinput' hdefect =>
    obtain ⟨-, rfl⟩ := List.cons.inj (hinput.symm.trans hinput')
    rw [hdefect]
  | number hno _ => exact absurd hinput (hno rest)
  | text hno => exact absurd hinput (hno rest)

theorem isCanonical_of_classify (hidem : config.rules.IsIdempotent)
    (h : classify config input = .ok (some c)) : c.IsCanonical config := by
  have hclassified := classified config input
  rw [h] at hclassified
  cases hclassified with
  | formula _ hf => exact Formula.isCanonical_of_parse hidem hf
  | number _ hx => exact hx
  | text _ => exact h

end Document

/-- A text without blanks is classified as it stands. -/
theorem Document.classify_of_isVisible {config : SheetConfig} {input : String} {first : Char}
    {rest : List Char} (hinput : input.toList = first :: rest)
    (hvisible : ∀ c ∈ first :: rest, Text.isVisible c = true) :
    classify config input = match Number.readFinite? (first :: rest) with
      | some x => .ok (some (.number x))
      | none =>
        if first = '=' then
          match Formula.parse config.rules rest with
          | .ok f => .ok (some (.formula f))
          | .error e => .error (.badFormula e)
        else .ok (some (.text input)) := by
  have htrim : Text.trim (first :: rest) = first :: rest :=
    Text.trim_eq_self (Text.stops_isBlank_of_isVisible hvisible)
      (Text.stops_isBlank_of_isVisible fun c hc => hvisible c (List.mem_reverse.1 hc))
  unfold classify
  rw [hinput]
  dsimp only
  rewrite [htrim]
  rfl

namespace Contents

variable {config : SheetConfig} {c : Contents}

theorem toList_input_number (x : Float) : (number x).input.toList = Number.canonicalChars x :=
  String.toList_ofList

theorem toList_input_formula (f : Formula) : (formula f).input.toList = '=' :: f.chars := by
  simp [input, Formula.text]

theorem isVisible_of_mem_formula {f : Formula} (hplain : ∀ t ∈ f.tokens, t.IsPlain) {d : Char}
    (hd : d ∈ '=' :: f.chars) : Text.isVisible d = true := by
  rcases List.mem_cons.1 hd with rfl | hd
  · decide
  · exact Formula.isVisible_chars hplain hd

/-- The input of contents makes a cell hold them, up to the sign of zero. -/
theorem classify_input (h : c.IsCanonical config) :
    Document.classify config c.input = .ok (some c.withoutNegativeZero) := by
  cases c with
  | number x =>
    -- a numeral has no blanks to cut, and is read back
    have hread := Number.readFinite?_canonicalChars h
    have hvisible : ∀ d ∈ Number.canonicalChars x, Text.isVisible d = true :=
      fun d hd => Number.isVisible_canonicalChars h hd
    have hinput := toList_input_number x
    cases hchars : Number.canonicalChars x with
    | nil =>
      rw [hchars] at hread
      cases hread
    | cons first rest =>
      rw [hchars] at hread hvisible hinput
      rw [Document.classify_of_isVisible hinput hvisible, hread]
      rfl
  | text s => exact h
  | formula f =>
    -- the rest of the input is parsed again
    rw [Document.classify_of_equals (toList_input_formula f), Formula.parse_chars h]
    rfl

theorem input_withoutNegativeZero (c : Contents) : c.withoutNegativeZero.input = c.input := by
  cases c with
  | number x =>
    show String.ofList _ = String.ofList _
    rw [Number.canonicalChars_withoutNegativeZero]
  | _ => rfl

/-- Contents with no sign at zero are equal to the contents, as doubles are equal. -/
theorem withoutNegativeZero_beq (h : c.IsCanonical config) :
    (c.withoutNegativeZero == c) = true := by
  cases c with
  | number x => exact Number.withoutNegativeZero_beq h
  | text s => exact beq_self_eq_true s
  | formula f =>
    show (f.tokens == f.tokens) = true
    exact Formula.beq_self h.plain

/-- Contents are equal to what their input makes a cell hold. -/
theorem beq_withoutNegativeZero (h : c.IsCanonical config) :
    (c == c.withoutNegativeZero) = true := by
  cases c with
  | number x => exact Number.beq_withoutNegativeZero h
  | text s => exact beq_self_eq_true s
  | formula f =>
    show (f.tokens == f.tokens) = true
    exact Formula.beq_self h.plain

/-- Whatever an input makes a cell hold is equal to itself: a number that is none is never held. -/
theorem beq_self_of_classify {input : String}
    (h : Document.classify config input = .ok (some c)) : (c == c) = true := by
  have hclassified := Document.classified config input
  rw [h] at hclassified
  cases hclassified with
  | formula _ hf => exact Formula.beq_self (Formula.fits_of_parse hf).2
  | number _ hx => exact Number.beq_self_of_isFinite hx
  | text _ => exact beq_self_eq_true input

end Contents

/-! ### All cells of a document -/

namespace Document

/-- All cells are held under names that were resolved, and hold what was classified. -/
structure Entered (doc : Document) : Prop where
  named : ∀ (name : String) (c : Contents), doc.cells[name]? = some c →
    ∃ spelling, doc.resolve spelling = .ok name
  classified : ∀ (name : String) (c : Contents), doc.cells[name]? = some c →
    ∃ input, classify doc.config input = .ok (some c)

namespace Entered

variable {doc : Document}

theorem new (config : SheetConfig) : (new config).Entered where
  named name c hc := by simp [Document.new] at hc
  classified name c hc := by simp [Document.new] at hc

theorem edit (h : doc.Entered) (hmirrors : doc.Mirrors) (spelling input : String) :
    (doc.edit spelling input).document.Entered := by
  rcases edit_cases hmirrors spelling input with
    hdoc | ⟨name, contents, affected, hname, hcontents, -, hdoc⟩
  · rw [hdoc]
    exact h
  · rw [hdoc]
    refine ⟨fun a c hc => ?_, fun a c hc => ?_⟩
    · rw [accepted, getElem?_cellsWith] at hc
      split at hc
      · next ha => exact ⟨spelling, ha ▸ hname⟩
      · exact h.named a c hc
    · rw [accepted, getElem?_cellsWith] at hc
      split at hc
      · exact ⟨input, hc ▸ hcontents⟩
      · exact h.classified a c hc

theorem value (h : doc.Entered) (spelling : String) : (doc.value spelling).document.Entered := by
  obtain ⟨cache, hdoc⟩ := doc.document_value spelling
  rw [hdoc]
  exact ⟨h.named, h.classified⟩

theorem saved (h : doc.Entered) : doc.saved.Entered :=
  ⟨h.named, h.classified⟩

theorem run (config : SheetConfig) (operations : List Operation) :
    ((Document.new config).run operations).Entered :=
  (run_invariant (P := fun doc => doc.Mirrors ∧ doc.Entered)
    (fun config => ⟨.new config, new config⟩)
    (fun spelling input h => ⟨h.1.edit spelling input, h.2.edit h.1 spelling input⟩)
    (fun spelling h => ⟨h.1.value spelling, h.2.value spelling⟩)
    (fun h => ⟨h.1.saved, h.2.saved⟩) config operations).2

/-- A cell is held under its own normal form. -/
theorem resolve_name (h : doc.Entered) (hidem : doc.config.rules.IsIdempotent) {name : String}
    {c : Contents} (hc : doc.cells[name]? = some c) :
    doc.resolve name = .ok name ∧ isVariableName name = true := by
  obtain ⟨spelling, hspelling⟩ := h.named name c hc
  obtain ⟨rfl, haccepts⟩ := NameRules.resolve?_eq_some_iff.1 (resolve_eq_ok_iff.1 hspelling)
  -- normalizing a normal form changes nothing, so it is accepted as it was
  have hagain : doc.config.rules.resolve? (doc.config.rules.normalize spelling) =
      some (doc.config.rules.normalize spelling) :=
    NameRules.resolve?_eq_some_iff.2 ⟨hidem spelling, haccepts⟩
  rw [NameRules.accepts, Bool.and_eq_true] at haccepts
  exact ⟨resolve_eq_ok_iff.2 hagain, haccepts.1⟩

theorem isCanonical (h : doc.Entered) (hidem : doc.config.rules.IsIdempotent) {name : String}
    {c : Contents} (hc : doc.cells[name]? = some c) : c.IsCanonical doc.config := by
  obtain ⟨input, hinput⟩ := h.classified name c hc
  exact isCanonical_of_classify hidem hinput

end Entered

end Document

end FormulaSheet
