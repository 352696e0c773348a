/-
Tokens of a formula.

A formula is an infix expression over numbers and variables: parentheses, the operators
`+ - * /`, variable names and decimal numerals.  A number is written in its canonical text,
so the tokens of a formula determine one text.

* **`Token.text`** — how a token is written;
* **`Token.opensOperand`**, **`Token.closesOperand`** — which tokens an operand starts and
  ends with.
-/
import FormulaSheet.Number.Format

namespace FormulaSheet

/-- The four arithmetic operators. -/
inductive Operator where
  | add
  | sub
  | mul
  | div
deriving Repr, DecidableEq

namespace Operator

/-- The character of an operator. -/
def symbol : Operator → Char
  | add => '+'
  | sub => '-'
  | mul => '*'
  | div => '/'

/-- The operator that a character stands for. -/
def ofSymbol? : Char → Option Operator
  | '+' => some add
  | '-' => some sub
  | '*' => some mul
  | '/' => some div
  | _ => none

/-- Whether an operator binds as `+` and `-` do. -/
def isAdditive : Operator → Bool
  | add | sub => true
  | mul | div => false

/-- Whether an operator binds as `*` and `/` do. -/
def isMultiplicative : Operator → Bool
  | mul | div => true
  | add | sub => false

/-- Every character that stands for an operator is its symbol. -/
theorem ofSymbol?_eq_some_iff {c : Char} {o : Operator} :
    ofSymbol? c = some o ↔ c = o.symbol := by
  constructor
  · intro h
    unfold ofSymbol? at h
    split at h <;> cases h <;> rfl
  · rintro rfl
    cases o <;> rfl

end Operator

/-- A token of a formula.  Two number tokens are alike when their numbers are equal as
doubles, so `0` and `-0` are. -/
inductive Token where
  | opening
  | closing
  | operator (o : Operator)
  | number (x : Float)
  | var (name : String)
deriving BEq

namespace Token

/-- Numbers, variables and `(` start an operand. -/
def opensOperand : Token → Bool
  | number _ | var _ | opening => true
  | closing | operator _ => false

/-- Numbers, variables and `)` end an operand. -/
def closesOperand : Token → Bool
  | number _ | var _ | closing => true
  | opening | operator _ => false

/-- The characters of a token. -/
def chars : Token → List Char
  | opening => ['(']
  | closing => [')']
  | operator o => [o.symbol]
  | number x => Number.canonicalChars x
  | var name => name.toList

/-- How a token is written. -/
def text (t : Token) : String :=
  String.ofList t.chars

end Token

end FormulaSheet
