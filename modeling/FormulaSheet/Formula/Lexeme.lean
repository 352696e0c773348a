/-
Cutting a text into tokens.

A lexeme is a parenthesis, an operator, a variable name or a numeral as it is spelled.  A text
is cut from the left: blanks are dropped, then the longest lexeme is taken.  The first place
with no lexeme, and the first numeral beyond the largest double, end the cutting.

* **`Lexeme.scan?`** — the lexeme at the start of a text, and what follows it;
* **`Token.scanAll`** — all tokens of a text, or the first thing wrong with it.
-/
import FormulaSheet.Formula.Error
import FormulaSheet.Name.Basic
import FormulaSheet.Number.Numeral
import FormulaSheet.Text.Blank

namespace FormulaSheet

/-- A token as it is spelled. -/
inductive Lexeme where
  | opening
  | closing
  | operator (o : Operator)
  | name (chars : List Char)
  | numeral (n : Number.Numeral)

namespace Lexeme

/-- The spelling of a lexeme. -/
def chars : Lexeme → List Char
  | opening => ['(']
  | closing => [')']
  | operator o => [o.symbol]
  | name chars => chars
  | numeral n => n.text

/-- The token of a lexeme; a numeral beyond the largest double has none. -/
def token : Lexeme → Except FormulaError Token
  | opening => .ok .opening
  | closing => .ok .closing
  | operator o => .ok (.operator o)
  | name chars => .ok (.var (String.ofList chars))
  | numeral n =>
    if n.pattern < Number.Binary64.infinity then .ok (.number (Number.ofMagnitude false n.pattern))
    else .error (.outOfRange (String.ofList n.text))

/-- The longest lexeme at the start of a text, and what follows it. -/
def scan? : List Char → Option (Lexeme × List Char)
  | [] => none
  | first :: rest =>
    if first = '(' then some (opening, rest)
    else if first = ')' then some (closing, rest)
    else match Operator.ofSymbol? first with
      | some o => some (operator o, rest)
      | none =>
        if startsName first then
          some (name (first :: rest.takeWhile continuesName), rest.dropWhile continuesName)
        else (Number.Numeral.scan? (first :: rest)).map fun (n, rest) => (numeral n, rest)

/-- A lexeme takes at least one character. -/
theorem length_lt_of_scan? {text rest : List Char} {lexeme : Lexeme}
    (h : scan? text = some (lexeme, rest)) : rest.length < text.length := by
  cases text with
  | nil => simp [scan?] at h
  | cons first tail =>
    simp only [scan?] at h
    have hdrop : (tail.dropWhile continuesName).length ≤ tail.length :=
      (List.dropWhile_sublist continuesName).length_le
    split at h
    · simp at h; simp [← h.2]
    split at h
    · simp at h; simp [← h.2]
    split at h
    · simp at h; simp [← h.2]
    split at h
    · simp at h; simp [← h.2]; omega
    · obtain ⟨⟨n, after⟩, hn, heq⟩ := Option.map_eq_some_iff.1 h
      simp at heq
      rw [← heq.2]
      exact Number.Numeral.length_lt_of_scan? hn

end Lexeme

namespace Token

/-- All tokens of a text. -/
def scanAll (text : List Char) : Except FormulaError (List Token) :=
  if (Text.trimStart text).isEmpty then .ok []
  else match _h : Lexeme.scan? (Text.trimStart text) with
    | none =>
      .error (.unrecognised (String.ofList ((Text.trimStart text).takeWhile (!Text.isBlank ·))))
    | some (lexeme, rest) => do
      let token ← lexeme.token
      let tokens ← scanAll rest
      return token :: tokens
termination_by text.length
decreasing_by
  have := Lexeme.length_lt_of_scan? _h
  have := Text.length_trimStart_le text
  omega

end Token

end FormulaSheet
