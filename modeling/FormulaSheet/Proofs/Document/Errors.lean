/-
Errors and what depends on them.

The value of a formula cell is an error where a name it mentions has no number, and an error is no
number.  So an error, a text or an empty cell makes an error of every formula that leads to it by
mentions, over however many cells.  An error that starts nowhere else is a division by zero.

* **`valueOf_eq_of_formula`** — the value of a formula cell, by the values of what it mentions;
* **`outcome_of_formula`** — what that value can be;
* **`value_run_formula`** — after every run, what is an error and which error it is.
-/
import FormulaSheet.Proofs.Document.Input
import FormulaSheet.Proofs.Document.Settled
import FormulaSheet.Proofs.Formula.Value

namespace FormulaSheet.Document

open Relation

variable {doc : Document} {name : String} {f : Formula}

theorem Entered.exists_parse (h : doc.Entered) (hcell : doc.cells[name]? = some (.formula f)) :
    ∃ text, Formula.parse doc.config.rules text = .ok f := by
  obtain ⟨input, hinput⟩ := h.classified name _ hcell
  have hclassified := Document.classified doc.config input
  rw [hinput] at hclassified
  cases hclassified with
  | formula _ hparse => exact ⟨_, hparse⟩

/-- The value of a formula cell is the value of its formula, by the values of what it mentions. -/
theorem Sound.valueOf_eq_of_formula (h : doc.Sound)
    (hcell : doc.cells[name]? = some (.formula f)) :
    (doc.valueOf name).answer = .ofResult (f.value fun v => (doc.valueOf v).answer.number?) := by
  have hvalue : ∀ v, HasValue doc.cells v (doc.valueOf v).answer := fun v =>
    (valueOf_spec h.mirrors h.kept v).1
  exact (hvalue name).unique (.formula _ hcell fun v _ => hvalue v)

/-- What the value of a formula cell can be, by which of the names it mentions have a number. -/
theorem Sound.outcome_of_formula (h : doc.Sound) (hentered : doc.Entered)
    (hcell : doc.cells[name]? = some (.formula f)) :
    ∃ result, (doc.valueOf name).answer = .ofResult result ∧
      Formula.Outcome f.mentions (fun v => (doc.valueOf v).answer.number?) result := by
  obtain ⟨text, hparse⟩ := hentered.exists_parse hcell
  exact ⟨_, h.valueOf_eq_of_formula hcell, Formula.value_outcome hparse _⟩

theorem Sound.isError_of_mentions (h : doc.Sound) (hentered : doc.Entered) {a b : String}
    (hab : Mentions doc.cells a b) (hnone : (doc.valueOf b).answer.number? = none) :
    (doc.valueOf a).answer.isError = true := by
  obtain ⟨f, hcell, hb⟩ := hab
  obtain ⟨result, hvalue, houtcome⟩ := h.outcome_of_formula hentered hcell
  obtain ⟨e, rfl⟩ := houtcome.exists_error hb hnone
  rw [hvalue]
  rfl

/-- What leads to a name without a number is an error. -/
theorem Sound.isError_of_reaches (h : doc.Sound) (hentered : doc.Entered) {a b : String}
    (hab : TransGen (Mentions doc.cells) a b) (hnone : (doc.valueOf b).answer.number? = none) :
    (doc.valueOf a).answer.isError = true := by
  induction hab using TransGen.head_induction_on with
  | single hab => exact h.isError_of_mentions hentered hab hnone
  | head hac _ ih =>
    -- the next cell on the way is an error, so it has no number
    refine h.isError_of_mentions hentered hac ?_
    revert ih
    generalize (doc.valueOf _).answer = value
    cases value <;> simp [CellValue.isError, CellValue.number?]

/-- After every run, a formula cell is an error if it leads by mentions to anything that has no
number.  An error is a division by zero, or a mentioned name that has no number; it is never a
malformed formula.  And where all mentioned names have numbers, so has the cell, or it is a
division by zero. -/
theorem value_run_formula {config : SheetConfig} {operations : List Operation}
    (hcell : ((new config).run operations).cells[name]? = some (.formula f)) :
    let doc := (new config).run operations
    let value (name : String) := (doc.valueOf name).answer
    (∀ spelling, doc.resolve spelling = .ok name →
      (doc.value spelling).answer = .ok (value name)) ∧
    ((∃ x, TransGen (Mentions doc.cells) name x ∧ (value x).number? = none) →
      (value name).isError = true) ∧
    (∀ e, value name = .error e → e ≠ .malformed ∧
      (e = .divisionByZero ∨ ∃ v ∈ f.mentions, e = .unresolved v ∧ (value v).number? = none)) ∧
    ((∀ v ∈ f.mentions, (value v).number? ≠ none) →
      (∃ x, value name = .number x) ∨ value name = .error .divisionByZero) := by
  intro doc value
  have h : doc.Sound := Sound.run config operations
  have hentered : doc.Entered := Entered.run config operations
  obtain ⟨result, hvalue, houtcome⟩ := h.outcome_of_formula hentered hcell
  refine ⟨fun spelling hname => answer_value hname, ?_, fun e he => ?_, fun hall => ?_⟩
  · rintro ⟨x, hx, hnone⟩
    exact h.isError_of_reaches hentered hx hnone
  · have hresult : CellValue.ofResult result = .error e := hvalue.symm.trans he
    cases houtcome with
    | number _ => cases hresult
    | divisionByZero =>
      cases hresult
      exact ⟨by simp, .inl rfl⟩
    | unresolved hv hnone =>
      cases hresult
      exact ⟨by simp, .inr ⟨_, hv, rfl, hnone⟩⟩
  · -- every name has a number, so no mentioned one can be the unresolved one
    cases houtcome with
    | number _ => exact .inl ⟨_, hvalue⟩
    | divisionByZero => exact .inr hvalue
    | unresolved hv hnone => exact absurd hnone (hall _ hv)

/-- An empty cell makes an error of a formula two mentions away. -/
theorem value_run_formula_empty :
    let doc := (new {}).run [.edit "a" "=b*0", .edit "b" "=c"]
    doc.cells["a"]? = some (.formula ⟨[.var "b", .operator .mul, .number 0]⟩) ∧
    (doc.valueOf "c").answer = .empty ∧
    (doc.valueOf "a").answer.isError = true ∧ (doc.valueOf "a").answer ≠ .error .malformed := by
  have ha : ((new {}).run [.edit "a" "=b*0", .edit "b" "=c"]).cells["a"]? =
      some (.formula ⟨[.var "b", .operator .mul, .number 0]⟩) := by
    cbv
  have hb : ((new {}).run [.edit "a" "=b*0", .edit "b" "=c"]).cells["b"]? =
      some (.formula ⟨[.var "c"]⟩) := by
    cbv
  have hc : (((new {}).run [.edit "a" "=b*0", .edit "b" "=c"]).valueOf "c").answer = .empty := by
    cbv
  have hab : Mentions ((new {}).run [.edit "a" "=b*0", .edit "b" "=c"]).cells "a" "b" :=
    ⟨_, ha, by decide⟩
  have hbc : Mentions ((new {}).run [.edit "a" "=b*0", .edit "b" "=c"]).cells "b" "c" :=
    ⟨_, hb, by decide⟩
  obtain ⟨-, herror, hmalformed, -⟩ := value_run_formula ha
  exact ⟨ha, hc, herror ⟨"c", .tail (.single hab) hbc, congrArg CellValue.number? hc⟩,
    fun h => (hmalformed _ h).1 rfl⟩

end FormulaSheet.Document
