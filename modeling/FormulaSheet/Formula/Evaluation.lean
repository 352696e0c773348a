/-
The value of a formula.

Tokens are read once from left to right, with a stack of values and a stack of what is still
to be applied.  `*` and `/` are applied as soon as their right operand is known, `+` and `-`
wait for the next additive operator, closing parenthesis or end of the formula.

The arithmetic is a parameter, and so is the way a variable is looked up: a look-up may
have effects, and the effects happen in the order in which the formula names its variables, up
to the first one that has no number.

* **`Formula.evaluate`** — the value of a formula, or the first thing that stops it;
* **`Arithmetic.apply`** — one operation; a division by zero is an error.
-/
import FormulaSheet.Formula.Basic

namespace FormulaSheet

/-- An interpretation of the four operations, and of the test that bars a division. -/
structure Arithmetic where
  add : Float → Float → Float
  sub : Float → Float → Float
  mul : Float → Float → Float
  div : Float → Float → Float
  isZero : Float → Bool

namespace Arithmetic

/-- The arithmetic of doubles; both zeros bar a division. -/
def double : Arithmetic where
  add x y := x + y
  sub x y := x - y
  mul x y := x * y
  div x y := x / y
  isZero x := x == 0

/-- The result of one operation. -/
def apply (a : Arithmetic) (o : Operator) (left right : Float) : Except EvalError Float :=
  match o with
  | .add => .ok (a.add left right)
  | .sub => .ok (a.sub left right)
  | .mul => .ok (a.mul left right)
  | .div => if a.isZero right then .error .divisionByZero else .ok (a.div left right)

end Arithmetic

/-- What waits on the operator stack. -/
inductive Pending where
  | operator (o : Operator)
  | opening
deriving Repr, DecidableEq

/-- The two stacks of an evaluation, topmost first. -/
structure Stacks where
  values : List Float := []
  pending : List Pending := []

namespace Stacks

/-- Take the topmost operator off if it is of the wanted kind. -/
def popOperator? (s : Stacks) (wanted : Operator → Bool) : Option (Operator × Stacks) :=
  match s.pending with
  | .operator o :: pending => if wanted o then some (o, { s with pending }) else none
  | _ => none

/-- Apply an operator to the two topmost values. -/
def reduce (a : Arithmetic) (s : Stacks) (o : Operator) : Except EvalError Stacks :=
  match s.values with
  | right :: left :: values => do
    let result ← a.apply o left right
    return { s with values := result :: values }
  | _ => .error .malformed

/-- Apply the topmost operator if it is of the wanted kind. -/
def reduceIf (a : Arithmetic) (s : Stacks) (wanted : Operator → Bool) : Except EvalError Stacks :=
  match s.popOperator? wanted with
  | some (o, s) => s.reduce a o
  | none => .ok s

/-- Push a value, then apply a `*` or `/` that was waiting for it. -/
def pushValue (a : Arithmetic) (s : Stacks) (x : Float) : Except EvalError Stacks :=
  reduceIf a { s with values := x :: s.values } Operator.isMultiplicative

/-- Push an operator, after applying an additive one that an additive one follows. -/
def pushOperator (a : Arithmetic) (s : Stacks) (o : Operator) : Except EvalError Stacks := do
  let s ← if o.isAdditive then s.reduceIf a Operator.isAdditive else .ok s
  return { s with pending := .operator o :: s.pending }

/-- Close the innermost parenthesis: its value becomes an operand of what stands before. -/
def close (a : Arithmetic) (s : Stacks) : Except EvalError Stacks := do
  let s ← s.reduceIf a Operator.isAdditive
  match s.pending with
  | .opening :: pending => reduceIf a { s with pending } Operator.isMultiplicative
  | _ => .error .malformed

/-- The value left when all tokens are read. -/
def finish (a : Arithmetic) (s : Stacks) : Except EvalError Float := do
  let s ← s.reduceIf a fun _ => true
  match s.values, s.pending with
  | [result], [] => .ok result
  | _, _ => .error .malformed

end Stacks

namespace Formula

variable {m : Type → Type} [Monad m]

/-- The number of a variable, or the error that it has none. -/
def number (lookup : String → m (Option Float)) (name : String) : ExceptT EvalError m Float :=
  ExceptT.mk do
    match ← lookup name with
    | some x => return .ok x
    | none => return .error (.unresolved name)

/-- The effect of one token on the stacks. -/
def step (a : Arithmetic) (lookup : String → m (Option Float)) (s : Stacks) (token : Token) :
    ExceptT EvalError m Stacks :=
  match token with
  | .number x => ofExcept (s.pushValue a x)
  | .var name => do
    let x ← number lookup name
    ofExcept (s.pushValue a x)
  | .opening => return { s with pending := .opening :: s.pending }
  | .operator o => ofExcept (s.pushOperator a o)
  | .closing => ofExcept (s.close a)

/-- The value of a formula under an arithmetic and a look-up of variables. -/
def evaluateWith (a : Arithmetic) (lookup : String → m (Option Float)) (f : Formula) :
    ExceptT EvalError m Float := do
  let s ← f.tokens.foldlM (step a lookup) {}
  ofExcept (s.finish a)

/-- The value of a formula in doubles. -/
def evaluate (lookup : String → m (Option Float)) (f : Formula) : m (Except EvalError Float) :=
  (f.evaluateWith Arithmetic.double lookup).run

/-- The value of a formula in doubles, where looking a variable up has no effects. -/
def value (lookup : String → Option Float) (f : Formula) : Except EvalError Float :=
  Id.run (f.evaluate fun name => pure (lookup name))

end Formula

end FormulaSheet
