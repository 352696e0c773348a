/-
The value of a formula whose variables are spelled in another way.

A formula that is entered into a cell has its variables in normal form, and one that is evaluated by
itself has them as they were written.  Where both find the same numbers they have the same value,
and where both have an error it is the same error, which names the variable as it is spelled there.

* **`Expr.value`** — the value of a tree, by the numbers of its variables;
* **`IsSum.map_normalize`** — putting variables in normal form does so in the tree;
* **`Formula.value_map_normalize`** — the value before variables are put in normal form, and after;
* **`Formula.exists_of_unresolved`** — which variable an error names.
-/
import FormulaSheet.Proofs.Formula.Value

namespace FormulaSheet

/-! ### Values of trees -/

namespace Expr

variable {lookup : String → Option Float}

/-- The value of an expression by the numbers of its variables. -/
def value (lookup : String → Option Float) (e : Expr) : Except EvalError Float :=
  Id.run (e.evaluate Arithmetic.double fun name => pure (lookup name)).run

theorem value_var_of_eq_some {name : String} {x : Float} (h : lookup name = some x) :
    (var name).value lookup = .ok x := by
  simp [value, evaluate_var, Formula.number, h]

theorem value_var_of_eq_none {name : String} (h : lookup name = none) :
    (var name).value lookup = .error (.unresolved name) := by
  simp [value, evaluate_var, Formula.number, h]

theorem value_binary (o : Operator) (left right : Expr) :
    (binary o left right).value lookup =
      left.value lookup >>= fun x => right.value lookup >>= fun y =>
        Arithmetic.double.apply o x y := by
  simp only [value, evaluate_binary, ExceptT.run_bind, Id.run_bind]
  -- the left operand is evaluated first, and its error is the value
  cases Id.run (left.evaluate Arithmetic.double fun name => pure (lookup name)).run with
  | error e => rfl
  | ok x =>
    simp only [Id.run_bind]
    cases Id.run (right.evaluate Arithmetic.double fun name => pure (lookup name)).run with
    | error e => rfl
    | ok y =>
      simp only [ofExcept_run, Id.run_pure]
      rfl

end Expr

/-- The value of tokens that are a sum is the value of its tree. -/
theorem Formula.value_eq_of_isSum {tokens : List Token} {e : Expr} (h : IsSum tokens e)
    (lookup : String → Option Float) : Formula.value lookup ⟨tokens⟩ = e.value lookup := by
  rw [value, evaluate, evaluateWith_eq_evaluate _ _ (f := ⟨tokens⟩) h]
  rfl

/-! ### Normal forms -/

/-- An error with the variable that it names in normal form. -/
def EvalError.normalize (rules : NameRules) : EvalError → EvalError
  | unresolved name => unresolved (rules.normalize name)
  | divisionByZero => divisionByZero
  | malformed => malformed

/-- An expression with its variables in normal form. -/
def Expr.normalize (rules : NameRules) : Expr → Expr
  | number x => number x
  | var name => var (rules.normalize name)
  | binary o left right => binary o (left.normalize rules) (right.normalize rules)

mutual

theorem IsSum.map_normalize {tokens : List Token} {e : Expr} (h : IsSum tokens e)
    (rules : NameRules) : IsSum (tokens.map (Token.normalize rules)) (e.normalize rules) := by
  cases h with
  | product hproduct => exact .product (hproduct.map_normalize rules)
  | additive hsum ho hproduct =>
    rw [List.map_append, List.map_cons]
    exact .additive (hsum.map_normalize rules) ho (hproduct.map_normalize rules)
-- ranked as the kinds are in `IsSum.fits_append`
termination_by 3 * tokens.length + 2
decreasing_by all_goals grind

theorem IsProduct.map_normalize {tokens : List Token} {e : Expr} (h : IsProduct tokens e)
    (rules : NameRules) : IsProduct (tokens.map (Token.normalize rules)) (e.normalize rules) := by
  cases h with
  | operand hoperand => exact .operand (hoperand.map_normalize rules)
  | multiplicative hproduct ho hoperand =>
    rw [List.map_append, List.map_cons]
    exact .multiplicative (hproduct.map_normalize rules) ho (hoperand.map_normalize rules)
termination_by 3 * tokens.length + 1
decreasing_by all_goals grind

theorem IsOperand.map_normalize {tokens : List Token} {e : Expr} (h : IsOperand tokens e)
    (rules : NameRules) : IsOperand (tokens.map (Token.normalize rules)) (e.normalize rules) := by
  cases h with
  | number x => exact .number x
  | var name => exact .var (rules.normalize name)
  | parenthesised hsum =>
    rw [List.map_append, List.map_cons]
    exact .parenthesised (hsum.map_normalize rules)
termination_by 3 * tokens.length
decreasing_by grind

end

section Values

variable {rules : NameRules} {look lookup : String → Option Float}

theorem mapError_apply (a : Arithmetic) (o : Operator) (x y : Float) :
    (a.apply o x y).mapError (EvalError.normalize rules) = a.apply o x y := by
  rcases a.apply_cases o x y with ⟨z, h⟩ | h
  · rw [h]
    rfl
  · rw [h]
    rfl

/-- Where the same numbers are found, a tree has the same value with its variables in normal form,
up to the spelling of the variable that an error names. -/
theorem Expr.value_normalize (e : Expr)
    (hlook : ∀ v ∈ e.names, look (rules.normalize v) = lookup v) :
    (e.normalize rules).value look = (e.value lookup).mapError (EvalError.normalize rules) := by
  induction e with
  | number x => rfl
  | var name =>
    have hname := hlook name (List.mem_singleton_self name)
    cases hvalue : lookup name with
    | some x =>
      rw [hvalue] at hname
      rw [normalize, value_var_of_eq_some hname, value_var_of_eq_some hvalue]
      rfl
    | none =>
      rw [hvalue] at hname
      rw [normalize, value_var_of_eq_none hname, value_var_of_eq_none hvalue]
      rfl
  | binary o left right hleft hright =>
    have hleft := hleft fun v hv => hlook v (List.mem_append_left _ hv)
    have hright := hright fun v hv => hlook v (List.mem_append_right _ hv)
    rw [normalize, value_binary, value_binary, hleft, hright]
    cases left.value lookup with
    | error e => rfl
    | ok x =>
      cases right.value lookup with
      | error e => rfl
      | ok y => exact (mapError_apply _ o x y).symm

/-- The variable that an error names is the first one that has no number. -/
theorem Expr.exists_of_unresolved (e : Expr) {v : String}
    (h : e.value lookup = .error (.unresolved v)) :
    ∃ before after, e.names = before ++ v :: after ∧ (∀ u ∈ before, lookup u ≠ none) ∧
      lookup v = none := by
  induction e with
  | number x => cases h
  | var name =>
    cases hvalue : lookup name with
    | some x =>
      rw [value_var_of_eq_some hvalue] at h
      cases h
    | none =>
      rw [value_var_of_eq_none hvalue] at h
      cases h
      exact ⟨[], [], rfl, List.forall_mem_nil _, hvalue⟩
  | binary o left right hleft hright =>
    have houtcome : Formula.Outcome left.names lookup (left.value lookup) :=
      Formula.outcome_evaluate Arithmetic.double lookup left
    rw [value_binary] at h
    cases hx : left.value lookup with
    | error e =>
      rw [hx] at h
      cases h
      obtain ⟨before, after, hnames, hbefore, hnone⟩ := hleft hx
      refine ⟨before, after ++ right.names, ?_, hbefore, hnone⟩
      rw [names, hnames, List.append_assoc, List.cons_append]
    | ok x =>
      rw [hx] at h houtcome
      -- the left operand has a number, so have all of its variables
      cases houtcome with | number hall =>
      cases hy : right.value lookup with
      | error e =>
        rw [hy] at h
        cases h
        obtain ⟨before, after, hnames, hbefore, hnone⟩ := hright hy
        refine ⟨left.names ++ before, after, ?_, fun u hu => ?_, hnone⟩
        · rw [names, hnames, List.append_assoc]
        · exact (List.mem_append.1 hu).elim (hall u) (hbefore u)
      | ok y =>
        rw [hy] at h
        -- an operation names no variable
        rcases Arithmetic.double.apply_cases o x y with ⟨z, hz⟩ | hz
        · cases hz.symm.trans h
        · cases hz.symm.trans h

namespace Formula

variable {tokens : List Token}

/-- Where the same numbers are found, a formula has the same value with its variables in normal
form, up to the spelling of the variable that an error names. -/
theorem value_map_normalize (hsum : ∃ e, IsSum tokens e)
    (hlook : ∀ v, .var v ∈ tokens → look (rules.normalize v) = lookup v) :
    value look ⟨tokens.map (Token.normalize rules)⟩ =
      (value lookup ⟨tokens⟩).mapError (EvalError.normalize rules) := by
  obtain ⟨e, he⟩ := hsum
  rw [value_eq_of_isSum (he.map_normalize rules), value_eq_of_isSum he]
  refine e.value_normalize fun v hv => hlook v ?_
  rwa [← he.names_eq, Token.mem_names_iff] at hv

/-- The variable that an error names is the first one of the formula that has no number. -/
theorem exists_of_unresolved (hsum : ∃ e, IsSum tokens e) {v : String}
    (h : value lookup ⟨tokens⟩ = .error (.unresolved v)) :
    ∃ before after, Token.names tokens = before ++ v :: after ∧
      (∀ u ∈ before, lookup u ≠ none) ∧ lookup v = none := by
  obtain ⟨e, he⟩ := hsum
  rw [value_eq_of_isSum he] at h
  rw [he.names_eq]
  exact e.exists_of_unresolved h

end Formula

end Values

end FormulaSheet
