/-
What the value of a formula can be.

A formula looks up each of its variables, unless something stops it before.  So if a variable has no
number its value is an error, whatever stands around the variable; and an error is a division by
zero, or names a variable of the formula that has no number.

* **`Formula.Outcome`** — what the value of something with these variables can be;
* **`Formula.value_outcome`** — a formula that was parsed has no other value;
* **`Formula.evaluate_run`** — a look-up whose effects do not show in what later look-ups find gives
  the value that the numbers alone give.
-/
import FormulaSheet.Proofs.Formula.Evaluation

namespace FormulaSheet

/-! ### Variables and errors -/

/-- The variables of an expression, from left to right. -/
def Expr.names : Expr → List String
  | number _ => []
  | var name => [name]
  | binary _ left right => left.names ++ right.names

theorem Token.names_append (left right : List Token) :
    names (left ++ right) = names left ++ names right :=
  List.filterMap_append

theorem Token.names_operator (o : Operator) (rest : List Token) :
    names (.operator o :: rest) = names rest := rfl

mutual

/-- Tokens hold the variables of their tree, in the same order. -/
theorem IsSum.names_eq {tokens : List Token} {e : Expr} (h : IsSum tokens e) :
    Token.names tokens = e.names := by
  cases h with
  | product hproduct => exact hproduct.names_eq
  | additive hsum _ hproduct =>
    rw [Token.names_append, Token.names_operator, hsum.names_eq, hproduct.names_eq, Expr.names]
-- ranked as the kinds are in `IsSum.fits_append`
termination_by 3 * tokens.length + 2
decreasing_by all_goals grind

theorem IsProduct.names_eq {tokens : List Token} {e : Expr} (h : IsProduct tokens e) :
    Token.names tokens = e.names := by
  cases h with
  | operand hoperand => exact hoperand.names_eq
  | multiplicative hproduct _ hoperand =>
    rw [Token.names_append, Token.names_operator, hproduct.names_eq, hoperand.names_eq, Expr.names]
termination_by 3 * tokens.length + 1
decreasing_by all_goals grind

theorem IsOperand.names_eq {tokens : List Token} {e : Expr} (h : IsOperand tokens e) :
    Token.names tokens = e.names := by
  cases h with
  | number x => rfl
  | var name => rfl
  | @parenthesised tokens _ hsum =>
    have hinner : Token.names (.opening :: tokens ++ [.closing]) = Token.names tokens := by
      rw [Token.names_append]
      exact List.append_nil _
    rw [hinner, hsum.names_eq]
termination_by 3 * tokens.length
decreasing_by grind

end

namespace Formula

/-- What the value of something with these variables can be: a number, if all of them have one, a
division by zero, or a variable that has none. -/
inductive Outcome (names : List String) (lookup : String → Option Float) :
    Except EvalError Float → Prop
  | number {x : Float} : (∀ name ∈ names, lookup name ≠ none) → Outcome names lookup (.ok x)
  | divisionByZero : Outcome names lookup (.error .divisionByZero)
  | unresolved {name : String} : name ∈ names → lookup name = none →
      Outcome names lookup (.error (.unresolved name))

variable {names names' : List String} {lookup : String → Option Float}
  {result : Except EvalError Float}

/-- An error stays one beside other variables. -/
theorem Outcome.error_of_subset {e : EvalError} (h : Outcome names lookup (.error e))
    (hsubset : names ⊆ names') : Outcome names' lookup (.error e) := by
  cases h with
  | divisionByZero => exact .divisionByZero
  | unresolved hname hnone => exact .unresolved (hsubset hname) hnone

theorem Outcome.congr (h : Outcome names lookup result)
    (hnames : ∀ name, name ∈ names ↔ name ∈ names') : Outcome names' lookup result := by
  cases h with
  | number hall => exact .number fun name hname => hall name ((hnames name).2 hname)
  | divisionByZero => exact .divisionByZero
  | unresolved hname hnone => exact .unresolved ((hnames _).1 hname) hnone

/-- A variable that has no number makes the value an error. -/
theorem Outcome.exists_error {name : String} (h : Outcome names lookup result)
    (hname : name ∈ names) (hnone : lookup name = none) : ∃ e, result = .error e := by
  cases h with
  | number hall => exact absurd hnone (hall name hname)
  | divisionByZero => exact ⟨_, rfl⟩
  | unresolved _ _ => exact ⟨_, rfl⟩

theorem Outcome.apply {a : Arithmetic} (o : Operator) (x y : Float)
    (hall : ∀ name ∈ names, lookup name ≠ none) : Outcome names lookup (a.apply o x y) := by
  rcases a.apply_cases o x y with ⟨z, h⟩ | h
  · rw [h]
    exact .number hall
  · rw [h]
    exact .divisionByZero

/-- The value of a tree, by the numbers of its variables. -/
theorem outcome_evaluate (a : Arithmetic) (lookup : String → Option Float) (e : Expr) :
    Outcome e.names lookup (Id.run (e.evaluate a fun name => pure (lookup name)).run) := by
  induction e with
  | number x => exact .number (by simp [Expr.names])
  | var name =>
    cases hname : lookup name with
    | some x =>
      have hvalue : Id.run (Expr.evaluate a (fun name => pure (lookup name)) (.var name)).run =
          .ok x := by
        simp [Expr.evaluate_var, Formula.number, hname]
      rw [hvalue]
      exact .number (by simp [Expr.names, hname])
    | none =>
      have hvalue : Id.run (Expr.evaluate a (fun name => pure (lookup name)) (.var name)).run =
          .error (.unresolved name) := by
        simp [Expr.evaluate_var, Formula.number, hname]
      rw [hvalue]
      exact .unresolved (List.mem_singleton_self name) hname
  | binary o left right hleft hright =>
    simp only [Expr.evaluate_binary, ExceptT.run_bind, Id.run_bind, Expr.names]
    -- the operands are evaluated in turn, and the first error is the value
    cases hx : Id.run (left.evaluate a fun name => pure (lookup name)).run with
    | error e =>
      rw [hx] at hleft
      exact hleft.error_of_subset (List.subset_append_left _ _)
    | ok x =>
      rw [hx] at hleft
      simp only [Id.run_bind]
      cases hy : Id.run (right.evaluate a fun name => pure (lookup name)).run with
      | error e =>
        rw [hy] at hright
        exact hright.error_of_subset (List.subset_append_right _ _)
      | ok y =>
        rw [hy] at hright
        cases hleft with
        | number hallleft =>
          cases hright with
          | number hallright =>
            simp only [ofExcept_run, Id.run_pure]
            exact .apply o x y fun name hname =>
              (List.mem_append.1 hname).elim (hallleft name) (hallright name)

/-- What the value of a formula that was parsed can be. -/
theorem value_outcome {rules : NameRules} {text : List Char} {f : Formula}
    (h : parse rules text = .ok f) (lookup : String → Option Float) :
    Outcome f.mentions lookup (f.value lookup) := by
  obtain ⟨e, htree, hvalue⟩ := exists_tree_of_parse h
  have hnames : ∀ name, name ∈ e.names ↔ name ∈ f.mentions := by
    intro name
    rw [← ((htree e).2 rfl).names_eq, Token.mem_names_iff, mem_mentions_iff]
  have houtcome := outcome_evaluate Arithmetic.double lookup e
  rw [← (hvalue Arithmetic.double fun name => pure (lookup name)).1] at houtcome
  exact houtcome.congr hnames

/-! ### Look-ups with effects -/

section Effects

variable {σ α β : Type} {I : σ → Prop} {look : String → Option Float}
  {lookUp : String → StateM σ (Option Float)}

/-- A program with a state keeps a property of the state, and where it holds gives what another
program gives without a state. -/
def Follows (I : σ → Prop) (program : ExceptT EvalError (StateM σ) α)
    (pureProgram : ExceptT EvalError Id α) : Prop :=
  ∀ s, I s → (Id.run (program.run.run s)).1 = Id.run pureProgram.run ∧
    I (Id.run (program.run.run s)).2

theorem Follows.pure (a : α) : Follows I (pure a) (pure a) :=
  fun _ hs => ⟨rfl, hs⟩

theorem Follows.ofExcept (result : Except EvalError α) :
    Follows I (ofExcept result) (ofExcept result) := by
  intro s hs
  cases result <;> exact ⟨rfl, hs⟩

theorem Follows.bind {program : ExceptT EvalError (StateM σ) α}
    {pureProgram : ExceptT EvalError Id α} {next : α → ExceptT EvalError (StateM σ) β}
    {pureNext : α → ExceptT EvalError Id β} (h : Follows I program pureProgram)
    (hnext : ∀ a, Follows I (next a) (pureNext a)) :
    Follows I (program >>= next) (pureProgram >>= pureNext) := by
  intro s hs
  obtain ⟨hresult, hkeeps⟩ := h s hs
  simp only [ExceptT.run_bind, StateT.run_bind, Id.run_bind, ← hresult]
  cases (Id.run (program.run.run s)).1 with
  | error e => exact ⟨rfl, hkeeps⟩
  | ok a => exact hnext a _ hkeeps

section

variable (hlook : ∀ name s, I s → (Id.run ((lookUp name).run s)).1 = look name ∧
  I (Id.run ((lookUp name).run s)).2)
include hlook

theorem follows_number (name : String) :
    Follows I (number lookUp name) (number (fun name => Pure.pure (look name)) name) := by
  intro s hs
  obtain ⟨hresult, hkeeps⟩ := hlook name s hs
  simp only [number, ExceptT.run_mk, StateT.run_bind, Id.run_bind, Id.run_pure, ← hresult]
  cases (Id.run ((lookUp name).run s)).1 <;> exact ⟨rfl, hkeeps⟩

theorem follows_step (a : Arithmetic) (held : Stacks) (token : Token) :
    Follows I (step a lookUp held token)
      (step a (fun name => Pure.pure (look name)) held token) := by
  -- only a variable is looked up; the other tokens leave the state alone
  cases token with
  | number x => exact .ofExcept _
  | var name => exact .bind (follows_number hlook name) fun _ => .ofExcept _
  | opening => exact .pure _
  | operator o => exact .ofExcept _
  | closing => exact .ofExcept _

/-- A look-up whose effects never show in what a name is found to be gives the value that the
numbers give by themselves, and what it relies on holds in the end. -/
theorem evaluate_run (f : Formula) {s : σ} (hs : I s) :
    (Id.run ((f.evaluate lookUp).run s)).1 = f.value look ∧
      I (Id.run ((f.evaluate lookUp).run s)).2 := by
  -- the tokens are read one after another, with whatever stacks came before
  have hfold : ∀ (tokens : List Token) (held : Stacks),
      Follows I (tokens.foldlM (step Arithmetic.double lookUp) held)
        (tokens.foldlM (step Arithmetic.double fun name => Pure.pure (look name)) held) := by
    intro tokens
    induction tokens with
    | nil => exact fun held => .pure held
    | cons token rest ih => exact fun held => .bind (follows_step hlook _ held token) ih
  exact Follows.bind (hfold f.tokens {}) (fun _ => .ofExcept _) s hs

end

end Effects

end Formula

end FormulaSheet
