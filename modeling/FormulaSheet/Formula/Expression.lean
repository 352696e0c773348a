/-
Expressions and their grammar.

The grammar of formulas, with `+` and `-` weaker than `*` and `/` and all four associating to
the left, is

    sum     = product { ( "+" | "-" ) product }
    product = operand { ( "*" | "/" ) operand }
    operand = number | variable | "(" sum ")"

`IsSum tokens e`, `IsProduct tokens e` and `IsOperand tokens e` say that a token sequence is such a
sum, product or operand and that `e` is its tree.  The value of a tree is defined by recursion
on it, left operand first; it is what evaluating the tokens has to agree with.  What a variable and
an operation are worth is said there once more, apart from the evaluation of tokens.

* **`IsSum`**, **`IsProduct`**, **`IsOperand`** — the grammar, as relations;
* **`Expr.evaluate`** — the value of a tree;
* **`Expr.evaluate_var`**, **`Expr.evaluate_binary`** — a variable and an operation are worth in a
  tree what they are worth among tokens.
-/
import FormulaSheet.Formula.Evaluation

namespace FormulaSheet

/-- An arithmetic expression. -/
inductive Expr where
  | number (x : Float)
  | var (name : String)
  | binary (o : Operator) (left right : Expr)

namespace Expr

variable {m : Type → Type} [Monad m]

/-- The value of an expression: left operand, right operand, operation.  It stops at the
first variable with no number and at the first division whose right operand is zero. -/
def evaluate (a : Arithmetic) (lookup : String → m (Option Float)) :
    Expr → ExceptT EvalError m Float
  | number x => return x
  | var name => do
    match ← lookup name with
    | some x => return x
    | none => throw (.unresolved name)
  | binary o left right => do
    let x ← left.evaluate a lookup
    let y ← right.evaluate a lookup
    match o with
    | .add => return a.add x y
    | .sub => return a.sub x y
    | .mul => return a.mul x y
    | .div => if a.isZero y then throw .divisionByZero else return a.div x y

variable {a : Arithmetic} {lookup : String → m (Option Float)}

/-- A variable is worth the number that an evaluation of tokens takes for it. -/
theorem evaluate_var [LawfulMonad m] (name : String) :
    (var name).evaluate a lookup = Formula.number lookup name := by
  refine ExceptT.ext ?_
  rw [evaluate, ExceptT.run_bind]
  show ((Except.ok <$> lookup name) >>= _) = (lookup name >>= _)
  rw [bind_map_left]
  refine congrArg (lookup name >>= ·) (funext fun found => ?_)
  cases found <;> rfl

/-- The operation is the one that an evaluation of tokens applies. -/
theorem evaluate_binary (o : Operator) (left right : Expr) :
    (binary o left right).evaluate a lookup =
      left.evaluate a lookup >>= fun x => right.evaluate a lookup >>= fun y =>
        ofExcept (a.apply o x y) := by
  refine congrArg (_ >>= ·) (funext fun x => congrArg (_ >>= ·) (funext fun y => ?_))
  cases o with
  | div =>
    simp only [Arithmetic.apply]
    split <;> rfl
  | _ => rfl

end Expr

mutual

/-- A token sequence that is a sum, and its tree. -/
inductive IsSum : List Token → Expr → Prop
  | product {tokens : List Token} {e : Expr} : IsProduct tokens e → IsSum tokens e
  | additive {left right : List Token} {e e' : Expr} {o : Operator} :
      IsSum left e → o.isAdditive = true → IsProduct right e' →
      IsSum (left ++ .operator o :: right) (.binary o e e')

/-- A token sequence that is a product, and its tree. -/
inductive IsProduct : List Token → Expr → Prop
  | operand {tokens : List Token} {e : Expr} : IsOperand tokens e → IsProduct tokens e
  | multiplicative {left right : List Token} {e e' : Expr} {o : Operator} :
      IsProduct left e → o.isMultiplicative = true → IsOperand right e' →
      IsProduct (left ++ .operator o :: right) (.binary o e e')

/-- A token sequence that is an operand, and its tree. -/
inductive IsOperand : List Token → Expr → Prop
  | number (x : Float) : IsOperand [.number x] (.number x)
  | var (name : String) : IsOperand [.var name] (.var name)
  | parenthesised {tokens : List Token} {e : Expr} :
      IsSum tokens e → IsOperand (.opening :: tokens ++ [.closing]) e

end

end FormulaSheet
