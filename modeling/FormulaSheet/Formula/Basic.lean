/-
Formulas.

A formula is a token sequence that reads as an expression and whose variables are names that
the sheet accepts, in their normal form.  Nothing else is kept: the variables and the text of
a formula are functions of its tokens.

A token sequence is checked from left to right, without building a tree.  It must open and
close with an operand, at each place what follows must fit, no closing parenthesis may come
before its opening one, and at the end none may be missing.

* **`Formula.parse`** — a text as a formula, or the first defect of that text;
* **`Formula.firstDefect`** — the first defect of a token sequence;
* **`Formula.mentions`** — the names that a formula mentions, each once;
* **`Formula.text`** — its canonical text, the tokens written without separators.
-/
import FormulaSheet.Formula.Lexeme

namespace FormulaSheet

/-- A validated formula.  Two formulas are equal when their tokens are. -/
structure Formula where
  tokens : List Token
deriving BEq

namespace Token

/-- The names among tokens, in order and with repeats. -/
def names (tokens : List Token) : List String :=
  tokens.filterMap fun
    | var name => some name
    | _ => none

/-- A token with its variable, if it is one, in normal form. -/
def normalize (rules : NameRules) : Token → Token
  | var name => var (rules.normalize name)
  | t => t

/-- What is wrong with one token following another: after an operand stands an operator or
`)`, after anything else an operand. -/
def adjacencyDefect (token next : Token) : Option FormulaError :=
  if token.closesOperand then
    if next.opensOperand then some (.operatorExpected token next) else none
  else if next.opensOperand then none
  else some (.operandExpected token next)

end Token

namespace Formula

/-- The first defect of the tokens from `position` on, after so many opening and closing
parentheses.  At each place the parentheses are counted first, then the next token is looked
at, then a variable's name is. -/
def defectFrom (rules : NameRules) (openings closings position : Nat) :
    List Token → Option FormulaError
  | [] => if openings = closings then none else some (.unbalanced openings closings)
  | token :: rest =>
    let openings := if token matches .opening then openings + 1 else openings
    let closings := if token matches .closing then closings + 1 else closings
    if openings < closings then some (.unmatchedClosing position)
    else match rest.head?.bind token.adjacencyDefect with
      | some defect => some defect
      | none =>
        match token with
        | .var name =>
          if rules.accepts (rules.normalize name) then
            defectFrom rules openings closings (position + 1) rest
          else some (.badVariable name)
        | _ => defectFrom rules openings closings (position + 1) rest

/-- The first defect of a token sequence: it is empty, it does not open or close with an
operand, or something is wrong along the way. -/
def firstDefect (rules : NameRules) (tokens : List Token) : Option FormulaError :=
  match tokens.head?, tokens.getLast? with
  | some first, some last =>
    if !first.opensOperand then some (.badStart first)
    else if !last.closesOperand then some (.badEnd last)
    else defectFrom rules 0 0 0 tokens
  | _, _ => some .empty

/-- A text as a formula whose variables obey the given rules. -/
def parse (rules : NameRules) (text : List Char) : Except FormulaError Formula := do
  let tokens ← Token.scanAll text
  match firstDefect rules tokens with
  | some defect => .error defect
  | none => .ok ⟨tokens.map (Token.normalize rules)⟩

/-- The names that a formula mentions, each once, in order of first occurrence. -/
def mentions (f : Formula) : List String :=
  (Token.names f.tokens).eraseDups

/-- The characters of the canonical text. -/
def chars (f : Formula) : List Char :=
  f.tokens.flatMap Token.chars

/-- The canonical text: the tokens written without separators. -/
def text (f : Formula) : String :=
  String.ofList f.chars

/-- Equal formulas have the same canonical text, which is what is hashed. -/
instance : Hashable Formula := ⟨fun f => hash f.text⟩

end Formula

end FormulaSheet
