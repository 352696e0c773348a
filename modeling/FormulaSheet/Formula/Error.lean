/-
What is wrong with a formula.

`FormulaError` says why a text is no formula, and so rejects an edit; `EvalError` says why a
formula has no number, and is a value like any other.  Each names the tokens, texts and counts
it is about; the wording is in `message` alone.
-/
import FormulaSheet.Formula.Token

namespace FormulaSheet

/-- Why a text is no formula. -/
inductive FormulaError where
  | empty
  | unrecognised (text : String)
  | outOfRange (numeral : String)
  | badStart (first : Token)
  | badEnd (last : Token)
  | unmatchedClosing (position : Nat)
  | operandExpected (token next : Token)
  | operatorExpected (token next : Token)
  | unbalanced (openings closings : Nat)
  | badVariable (name : String)

namespace FormulaError

/-- The wording of a formula error. -/
def message : FormulaError → String
  | empty => "Formula is empty"
  | unrecognised text => s!"Unrecognised token '{text}'"
  | outOfRange numeral => s!"Number '{numeral}' is out of range"
  | badStart first =>
    s!"Formula must start with a number, variable or '(' but starts with '{first.text}'"
  | badEnd last =>
    s!"Formula must end with a number, variable or ')' but ends with '{last.text}'"
  | unmatchedClosing position => s!"Unmatched ')' at token {position}"
  | operandExpected token next =>
    s!"'{token.text}' must be followed by a number, variable or '(' but is followed by '{next.text}'"
  | operatorExpected token next =>
    s!"'{token.text}' must be followed by an operator or ')' but is followed by '{next.text}'"
  | unbalanced openings closings =>
    s!"Unbalanced parentheses: {openings} '(' and {closings} ')'"
  | badVariable name => s!"Invalid variable '{name}'"

end FormulaError

/-- Why a formula has no number. -/
inductive EvalError where
  /-- A variable whose value is not a number. -/
  | unresolved (name : String)
  /-- A division whose right operand is zero. -/
  | divisionByZero
  /-- A token sequence that is no expression. -/
  | malformed
deriving Repr, DecidableEq

namespace EvalError

/-- The wording of an evaluation error. -/
def message : EvalError → String
  | unresolved name => s!"Unresolved variable '{name}'"
  | divisionByZero => "Division by zero"
  | malformed => "Malformed expression"

end EvalError

end FormulaSheet
