/-
Two stacks that build a tree.

Reading tokens with two stacks, as an evaluation does, but with trees in place of numbers and an
application of an operator to trees in place of the operation, builds the tree of the tokens:

* **`IsSum.build`** — the tokens of a sum build its tree, whatever lies below on the stacks;
* **`IsSum.unique`** — so a token sequence has one tree at most.

An additive operator is applied late, so a sum is finished only by what comes after it:
`IsSum.build` says what is on the stacks once the last waiting additive operator is applied.
-/
import FormulaSheet.Formula.Expression

namespace FormulaSheet

/-- The two stacks of an evaluation, topmost first, with trees in place of numbers. -/
structure TreeStacks where
  trees : List Expr := []
  pending : List Pending := []

namespace TreeStacks

/-- Apply an operator to the two topmost trees. -/
def reduce (s : TreeStacks) (o : Operator) : Option TreeStacks :=
  match s.trees with
  | right :: left :: trees => some { s with trees := .binary o left right :: trees }
  | _ => none

/-- Apply the topmost operator if it is of the wanted kind. -/
def reduceIf (s : TreeStacks) (wanted : Operator → Bool) : Option TreeStacks :=
  match s.pending with
  | .operator o :: pending =>
    if wanted o then reduce { s with pending } o else some s
  | _ => some s

/-- Push a tree, then apply a `*` or `/` that was waiting for it. -/
def pushTree (s : TreeStacks) (e : Expr) : Option TreeStacks :=
  reduceIf { s with trees := e :: s.trees } Operator.isMultiplicative

/-- Push an operator, after applying an additive one that an additive one follows. -/
def pushOperator (s : TreeStacks) (o : Operator) : Option TreeStacks := do
  let s ← if o.isAdditive then s.reduceIf Operator.isAdditive else some s
  return { s with pending := .operator o :: s.pending }

/-- Close the innermost parenthesis: its tree becomes an operand of what stands before. -/
def close (s : TreeStacks) : Option TreeStacks := do
  let s ← s.reduceIf Operator.isAdditive
  match s.pending with
  | .opening :: pending => reduceIf { s with pending } Operator.isMultiplicative
  | _ => none

/-- The effect of one token on the stacks. -/
def step (s : TreeStacks) : Token → Option TreeStacks
  | .number x => s.pushTree (.number x)
  | .var name => s.pushTree (.var name)
  | .opening => some { s with pending := .opening :: s.pending }
  | .operator o => s.pushOperator o
  | .closing => s.close

/-- The tree left when all tokens are read. -/
def finish (s : TreeStacks) : Option Expr := do
  let s ← s.reduceIf fun _ => true
  match s.trees, s.pending with
  | [e], [] => some e
  | _, _ => none

/-- The topmost operator, if there is one on top, is not of the wanted kind. -/
def Blocks (pending : List Pending) (wanted : Operator → Bool) : Prop :=
  ∀ o, pending.head? = some (.operator o) → wanted o = false

theorem reduceIf_of_blocks {s : TreeStacks} {wanted : Operator → Bool}
    (h : Blocks s.pending wanted) : s.reduceIf wanted = some s := by
  unfold reduceIf
  split
  · next o pending hpending =>
    rw [h o (by rw [hpending]; rfl)]
    rfl
  · rfl

theorem reduceIf_of_wanted {trees : List Expr} {pending : List Pending} {left right : Expr}
    {o : Operator} {wanted : Operator → Bool} (h : wanted o = true) :
    reduceIf ⟨right :: left :: trees, .operator o :: pending⟩ wanted =
      some ⟨.binary o left right :: trees, pending⟩ := by
  simp [reduceIf, reduce, h]

end TreeStacks

open TreeStacks

/-! ### The tokens of a sum, a product, an operand -/

mutual

/-- The tokens of a sum leave its tree on the stacks, up to an additive operator that still
waits.  The operator on top is then not multiplicative. -/
theorem IsSum.build {tokens : List Token} {e : Expr} (h : IsSum tokens e)
    (trees : List Expr) {pending : List Pending} (hblocks : Blocks pending fun _ => true) :
    ∃ s, tokens.foldlM step ⟨trees, pending⟩ = some s ∧
      Blocks s.pending Operator.isMultiplicative ∧
      s.reduceIf Operator.isAdditive = some ⟨e :: trees, pending⟩ := by
  cases h with
  | product hproduct =>
    -- no operator waits at all
    have hno : ∀ wanted, Blocks pending wanted := fun wanted o ho =>
      absurd (hblocks o ho) (by simp)
    exact ⟨_, hproduct.build trees (hno _), hno _, reduceIf_of_blocks (hno _)⟩
  | @additive left right e₁ e₂ o hsum hadd hproduct =>
    obtain ⟨s, hleft, -, hreduce⟩ := hsum.build trees hblocks
    have htop : Blocks (.operator o :: pending) Operator.isMultiplicative := by
      intro o' ho'
      obtain rfl : o = o' := by simpa using ho'
      cases o <;> simp_all [Operator.isAdditive, Operator.isMultiplicative]
    -- the operator of the last product waits; pushing it has applied the one before
    refine ⟨⟨e₂ :: e₁ :: trees, .operator o :: pending⟩, ?_, htop, reduceIf_of_wanted hadd⟩
    rw [List.foldlM_append, hleft]
    simp only [Option.bind_eq_bind, Option.bind_some, List.foldlM_cons, step, pushOperator, hadd,
      if_true, hreduce]
    exact hproduct.build _ htop
termination_by 3 * tokens.length + 2
decreasing_by all_goals grind

/-- The tokens of a product leave its tree on the stacks. -/
theorem IsProduct.build {tokens : List Token} {e : Expr} (h : IsProduct tokens e)
    (trees : List Expr) {pending : List Pending}
    (hblocks : Blocks pending Operator.isMultiplicative) :
    tokens.foldlM step ⟨trees, pending⟩ = some ⟨e :: trees, pending⟩ := by
  cases h with
  | operand hoperand =>
    rw [hoperand.build, pushTree]
    exact reduceIf_of_blocks hblocks
  | @multiplicative left right e₁ e₂ o hproduct hmul hoperand =>
    have hadd : o.isAdditive = false := by
      cases o <;> simp_all [Operator.isAdditive, Operator.isMultiplicative]
    rw [List.foldlM_append, hproduct.build trees hblocks]
    simp only [Option.bind_eq_bind, Option.bind_some, List.foldlM_cons, step, pushOperator, hadd,
      Bool.false_eq_true, if_false, Option.pure_def]
    rw [hoperand.build, pushTree]
    exact reduceIf_of_wanted hmul
termination_by 3 * tokens.length + 1
decreasing_by all_goals grind

/-- The tokens of an operand push its tree. -/
theorem IsOperand.build {tokens : List Token} {e : Expr} (h : IsOperand tokens e)
    (trees : List Expr) {pending : List Pending} :
    tokens.foldlM step ⟨trees, pending⟩ = pushTree ⟨trees, pending⟩ e := by
  cases h with
  | number x => simp [step]
  | var name => simp [step]
  | @parenthesised tokens _ hsum =>
    -- inside the parenthesis nothing that waits outside can be applied
    have hblocks : Blocks (.opening :: pending) fun _ => true := by
      intro o ho
      simp at ho
    obtain ⟨s, hinner, -, hreduce⟩ := hsum.build trees hblocks
    simp only [List.cons_append, List.foldlM_cons, List.foldlM_append, List.foldlM_nil, step,
      Option.bind_eq_bind, Option.bind_some, hinner, close, hreduce]
    simp [pushTree]
termination_by 3 * tokens.length
decreasing_by grind

end

/-- The tokens of a sum, read from empty stacks, build its tree. -/
theorem IsSum.build_finish {tokens : List Token} {e : Expr} (h : IsSum tokens e) :
    (tokens.foldlM step {} >>= finish) = some e := by
  have hblocks : Blocks [] fun _ => true := by
    intro o ho
    simp at ho
  obtain ⟨s, hread, htop, hreduce⟩ := h.build [] hblocks
  have hany : s.reduceIf (fun _ => true) = s.reduceIf Operator.isAdditive := by
    -- an operator on top is not multiplicative, so it is additive
    unfold reduceIf
    split
    · next o pending hpending =>
      have hmul := htop o (by rw [hpending]; rfl)
      have hadd : o.isAdditive = true := by
        cases o <;> simp_all [Operator.isAdditive, Operator.isMultiplicative]
      rw [hadd]
    · rfl
  rw [hread]
  simp [finish, hany, hreduce]

/-- A token sequence has one tree at most. -/
theorem IsSum.unique {tokens : List Token} {e e' : Expr} (h : IsSum tokens e)
    (h' : IsSum tokens e') : e = e' := by
  have hbuild := h.build_finish
  rw [h'.build_finish] at hbuild
  exact (Option.some.inj hbuild).symm

end FormulaSheet
