/-
An evaluation computes the tree of its formula.

Evaluating tokens with two stacks of numbers is the same as first building trees with two stacks
and then evaluating what is on the stacks, from the bottom to the top: the operands of an operator
lie next to each other, so nothing is evaluated in between.  The monad of the look-ups is
arbitrary, so the equality is one of effects too: a look-up that keeps a list of the names it is
asked for ends with the same list.

* **`evaluateWith_eq_evaluate`** — the value of tokens that are a sum is the value of its tree;
* **`Expr.evaluate_ne_malformed`** — the value of a tree is a number, an unresolved variable or a
  division by zero;
* **`exists_tree_of_parse`** — an accepted formula has exactly one tree, and its value is the value
  of that tree.
-/
import FormulaSheet.Proofs.Formula.Grammar
import FormulaSheet.Proofs.Formula.Trees
import Mathlib

namespace FormulaSheet

variable {m : Type → Type} [Monad m] {a : Arithmetic} {lookup : String → m (Option Float)}

/-! ### Stacks of trees, evaluated -/

/-- The values of trees, the last one first. -/
def evaluateAll (a : Arithmetic) (lookup : String → m (Option Float)) :
    List Expr → ExceptT EvalError m (List Float)
  | [] => return []
  | e :: below => do
    let values ← evaluateAll a lookup below
    let x ← e.evaluate a lookup
    return x :: values

/-- The stacks of an evaluation that has come as far as the trees. -/
def TreeStacks.evaluate (s : TreeStacks) (a : Arithmetic) (lookup : String → m (Option Float)) :
    ExceptT EvalError m Stacks := do
  let values ← evaluateAll a lookup s.trees
  return { values, pending := s.pending }

section Simulation

@[simp] theorem ofExcept_ok {α : Type} (y : α) :
    (ofExcept (.ok y : Except EvalError α) : ExceptT EvalError m α) = pure y := rfl

@[simp] theorem ofExcept_pure {α : Type} (y : α) :
    (ofExcept (pure y : Except EvalError α) : ExceptT EvalError m α) = pure y := rfl

theorem ofExcept_run {α : Type} (x : Except EvalError α) :
    (ofExcept x : ExceptT EvalError m α).run = pure x := by
  cases x <;> rfl

variable [LawfulMonad m]

theorem ofExcept_bind {α β : Type} (x : Except EvalError α) (f : α → Except EvalError β) :
    (ofExcept (x >>= f) : ExceptT EvalError m β) = ofExcept x >>= fun y => ofExcept (f y) := by
  cases x with
  | ok y =>
    rw [ofExcept_ok, pure_bind]
    rfl
  | error e =>
    refine ExceptT.ext ?_
    simp [ofExcept, bind, Except.bind, throw, throwThe, MonadExceptOf.throw, ExceptT.bind,
      ExceptT.bindCont, ExceptT.mk, ExceptT.run]

theorem evaluate_reduce {s s' : TreeStacks} {o : Operator} (h : s.reduce o = some s') :
    (s.evaluate a lookup >>= fun t => ofExcept (t.reduce a o)) = s'.evaluate a lookup := by
  obtain ⟨trees, pending⟩ := s
  match trees, h with
  | right :: left :: below, h =>
    obtain rfl := Option.some.inj h
    -- the two operands are evaluated one right after the other, the left one first
    simp only [TreeStacks.evaluate, evaluateAll, Expr.evaluate_binary, Stacks.reduce,
      bind_assoc, pure_bind, ofExcept_bind]
    rfl

theorem evaluate_reduceIf {s s' : TreeStacks} {wanted : Operator → Bool}
    (h : s.reduceIf wanted = some s') :
    (s.evaluate a lookup >>= fun t => ofExcept (t.reduceIf a wanted)) =
      s'.evaluate a lookup := by
  obtain ⟨trees, pending⟩ := s
  unfold TreeStacks.reduceIf at h
  split at h
  · next o below hpending =>
    dsimp only at hpending
    subst hpending
    cases hwanted : wanted o with
    | true =>
      rw [if_pos hwanted] at h
      rw [← evaluate_reduce h]
      simp [TreeStacks.evaluate, Stacks.reduceIf, Stacks.popOperator?, hwanted]
    | false =>
      rw [hwanted] at h
      obtain rfl := Option.some.inj h
      simp [TreeStacks.evaluate, Stacks.reduceIf, Stacks.popOperator?, hwanted]
  · next hno =>
    -- no operator is on top, of the trees or of the values
    obtain rfl := Option.some.inj h
    have hpop : ∀ values, (Stacks.mk values pending).popOperator? wanted = none := by
      intro values
      unfold Stacks.popOperator?
      split
      · next o below hpending => exact absurd hpending (hno o below)
      · rfl
    simp [TreeStacks.evaluate, Stacks.reduceIf, hpop]

/-- Pushing a tree, or evaluating it on top of what lies below and pushing its value. -/
theorem evaluate_pushTree {s s' : TreeStacks} {e : Expr} (h : s.pushTree e = some s') :
    (s.evaluate a lookup >>= fun t => e.evaluate a lookup >>= fun x =>
      ofExcept (t.pushValue a x)) = s'.evaluate a lookup := by
  rw [← evaluate_reduceIf h]
  simp [TreeStacks.evaluate, evaluateAll, Stacks.pushValue]

theorem evaluate_pushOperator {s s' : TreeStacks} {o : Operator}
    (h : s.pushOperator o = some s') :
    (s.evaluate a lookup >>= fun t => ofExcept (t.pushOperator a o)) =
      s'.evaluate a lookup := by
  cases hadd : o.isAdditive with
  | true =>
    simp only [TreeStacks.pushOperator, hadd, if_true, Option.bind_eq_bind,
      Option.bind_eq_some_iff, Option.pure_def, Option.some.injEq] at h
    obtain ⟨r, hreduced, rfl⟩ := h
    simp only [Stacks.pushOperator, hadd, if_true, ofExcept_bind, ← bind_assoc,
      evaluate_reduceIf hreduced]
    simp [TreeStacks.evaluate]
  | false =>
    simp only [TreeStacks.pushOperator, hadd, Bool.false_eq_true, if_false, Option.bind_eq_bind,
      Option.bind_some, Option.pure_def, Option.some.injEq] at h
    subst h
    simp [Stacks.pushOperator, hadd, TreeStacks.evaluate]

theorem evaluate_close {s s' : TreeStacks} (h : s.close = some s') :
    (s.evaluate a lookup >>= fun t => ofExcept (t.close a)) = s'.evaluate a lookup := by
  simp only [TreeStacks.close, Option.bind_eq_bind, Option.bind_eq_some_iff] at h
  obtain ⟨r, hreduced, hclosed⟩ := h
  obtain ⟨trees, pending⟩ := r
  simp only [Stacks.close, ofExcept_bind, ← bind_assoc, evaluate_reduceIf hreduced]
  cases pending with
  | nil => cases hclosed
  | cons top below =>
    cases top with
    | operator o => cases hclosed
    | opening =>
      rw [← evaluate_reduceIf hclosed]
      simp [TreeStacks.evaluate]

/-- One token has the same effect on values as on trees. -/
theorem evaluate_step {s s' : TreeStacks} {token : Token} (h : s.step token = some s') :
    (s.evaluate a lookup >>= fun t => Formula.step a lookup t token) =
      s'.evaluate a lookup := by
  cases token with
  | number x =>
    rw [← evaluate_pushTree h]
    simp [Formula.step, Expr.evaluate]
  | var name =>
    rw [← evaluate_pushTree h, Expr.evaluate_var]
    rfl
  | opening =>
    obtain rfl := Option.some.inj h
    simp [Formula.step, TreeStacks.evaluate]
  | operator o => exact evaluate_pushOperator h
  | closing => exact evaluate_close h

variable (a lookup) in
theorem evaluate_foldlM {tokens : List Token} {s s' : TreeStacks}
    (h : tokens.foldlM TreeStacks.step s = some s') :
    (s.evaluate a lookup >>= fun t => tokens.foldlM (Formula.step a lookup) t) =
      s'.evaluate a lookup := by
  induction tokens generalizing s with
  | nil =>
    obtain rfl := Option.some.inj h
    simp
  | cons token rest ih =>
    rw [List.foldlM_cons, Option.bind_eq_bind, Option.bind_eq_some_iff] at h
    obtain ⟨next, hstep, hrest⟩ := h
    simp only [List.foldlM_cons, ← bind_assoc, evaluate_step hstep]
    exact ih hrest

theorem evaluate_finish {s : TreeStacks} {e : Expr} (h : s.finish = some e) :
    (s.evaluate a lookup >>= fun t => ofExcept (t.finish a)) = e.evaluate a lookup := by
  simp only [TreeStacks.finish, Option.bind_eq_bind, Option.bind_eq_some_iff] at h
  obtain ⟨r, hreduced, hleft⟩ := h
  obtain ⟨trees, pending⟩ := r
  simp only [Stacks.finish, ofExcept_bind, ← bind_assoc, evaluate_reduceIf hreduced]
  cases trees with
  | nil => cases hleft
  | cons e' below =>
    cases below with
    | cons e'' below => cases hleft
    | nil =>
      cases pending with
      | cons top below => cases hleft
      | nil =>
        obtain rfl := Option.some.inj hleft
        simp [TreeStacks.evaluate, evaluateAll]

/-! ### The value of a formula -/

variable (a lookup) in
/-- The value of tokens that are a sum is the value of its tree. -/
theorem evaluateWith_eq_evaluate {f : Formula} {e : Expr} (h : IsSum f.tokens e) :
    f.evaluateWith a lookup = e.evaluate a lookup := by
  have hbuild := h.build_finish
  rw [Option.bind_eq_bind, Option.bind_eq_some_iff] at hbuild
  obtain ⟨s, hread, hfinish⟩ := hbuild
  -- empty stacks hold no trees to evaluate
  have hstart : (TreeStacks.evaluate {} a lookup) = pure {} := by
    simp [TreeStacks.evaluate, evaluateAll]
  have hrun := evaluate_foldlM a lookup hread
  rw [hstart, pure_bind] at hrun
  rw [Formula.evaluateWith, hrun, evaluate_finish hfinish]

/-- An operation has a result, or it is a division by zero. -/
theorem Arithmetic.apply_cases (a : Arithmetic) (o : Operator) (left right : Float) :
    (∃ x, a.apply o left right = .ok x) ∨ a.apply o left right = .error .divisionByZero := by
  cases o with
  | div =>
    rw [apply]
    split
    · exact .inr rfl
    · exact .inl ⟨_, rfl⟩
  | _ => exact .inl ⟨_, rfl⟩

theorem Arithmetic.apply_ne_malformed (a : Arithmetic) (o : Operator) (left right : Float) :
    a.apply o left right ≠ .error .malformed := by
  rcases a.apply_cases o left right with ⟨x, h⟩ | h <;> simp [h]

/-- No tree is malformed, whatever the look-ups do. -/
theorem Expr.evaluate_ne_malformed (e : Expr) :
    SatisfiesM (· ≠ .error .malformed) (e.evaluate a lookup).run := by
  induction e with
  | number x => exact SatisfiesM.pure (by simp)
  | var name =>
    rw [Expr.evaluate_var]
    refine SatisfiesM.bind_pre ?_
    refine SatisfiesM.of_true fun found => ?_
    cases found with
    | some x => exact SatisfiesM.pure (by simp)
    | none => exact SatisfiesM.pure (by simp)
  | binary o left right hleft hright =>
    simp only [Expr.evaluate_binary, ExceptT.run_bind]
    -- an operand that has an error passes it on, and no operand is malformed
    refine hleft.bind fun x hx => ?_
    cases x with
    | error e => exact SatisfiesM.pure hx
    | ok x =>
      refine hright.bind fun y hy => ?_
      cases y with
      | error e => exact SatisfiesM.pure hy
      | ok y =>
        show SatisfiesM (m := m) _ (ofExcept (a.apply o x y) : ExceptT EvalError m Float).run
        rw [ofExcept_run]
        exact SatisfiesM.pure (a.apply_ne_malformed o x y)

end Simulation

/-- An accepted formula has exactly one tree, and its value is the value of that tree: the same
number or error, after the same look-ups in the same order, under every arithmetic.  It is never
malformed. -/
theorem exists_tree_of_parse {rules : NameRules} {text : List Char} {f : Formula}
    (h : Formula.parse rules text = .ok f) :
    ∃ e, (∀ e', IsSum f.tokens e' ↔ e' = e) ∧
      ∀ {m : Type → Type} [Monad m] [LawfulMonad m] (a : Arithmetic)
        (lookup : String → m (Option Float)),
        f.evaluateWith a lookup = e.evaluate a lookup ∧
          SatisfiesM (· ≠ .error .malformed) (f.evaluateWith a lookup).run := by
  obtain ⟨tokens, -, hfits, -, rfl⟩ := Formula.parse_eq_ok_iff.1 h
  obtain ⟨e, he⟩ := (hfits.map_normalize rules).exists_isSum
  refine ⟨e, fun e' => ⟨fun he' => he'.unique he, ?_⟩, fun a lookup => ?_⟩
  · rintro rfl
    exact he
  · -- the tree comes from the grammar and the value from the stacks; here they meet
    have hvalue := evaluateWith_eq_evaluate a lookup (f := ⟨_⟩) he
    refine ⟨hvalue, ?_⟩
    rw [hvalue]
    exact e.evaluate_ne_malformed

/-- The formula `x - y / (z - x)`, which mentions one variable twice. -/
theorem exists_tree_difference :
    ∃ f, Formula.parse {} "x-y/(z-x)".toList = .ok f ∧
      ∃ e, (∀ e', IsSum f.tokens e' ↔ e' = e) ∧
        ∀ {m : Type → Type} [Monad m] [LawfulMonad m] (a : Arithmetic)
          (lookup : String → m (Option Float)),
          f.evaluateWith a lookup = e.evaluate a lookup ∧
            SatisfiesM (· ≠ .error .malformed) (f.evaluateWith a lookup).run := by
  have hparse : Formula.parse {} "x-y/(z-x)".toList =
      .ok ⟨[.var "x", .operator .sub, .var "y", .operator .div, .opening, .var "z",
        .operator .sub, .var "x", .closing]⟩ := by
    cbv
  exact ⟨_, hparse, exists_tree_of_parse hparse⟩

end FormulaSheet
