/-
TOML entries.

Of TOML the settings need entries alone: a key, which is bare or a string of one line, and a
value, which is a string, on a line of their own.  Blank lines and comments stand anywhere
between.  A text with anything else in it, such as a table or a number, is no list of entries.

* **`scanEntry?`** — the entry at the start of a text, and what follows its line;
* **`skipLayout?`** — a text from its first entry on.
-/
import FormulaSheet.Toml.Text

namespace FormulaSheet.Toml

/-- Characters of bare keys. -/
def isBareChar (c : Char) : Bool :=
  c.isAlphanum || c == '_' || c == '-'

/-- What follows the comment at the start of a text, from its line feed on. -/
def skipComment? (text : List Char) : Option (List Char) :=
  let comment := text.takeWhile (· ≠ '\n')
  let rest := text.dropWhile (· ≠ '\n')
  let body := if !rest.isEmpty && comment.getLast? == some '\r' then comment.dropLast else comment
  if body.all isPlain then some rest else none

/-- A comment takes no character back. -/
theorem length_le_of_skipComment? {text rest : List Char} (h : skipComment? text = some rest) :
    rest.length ≤ text.length := by
  have := (List.dropWhile_sublist (· ≠ '\n') (l := text)).length_le
  simp only [skipComment?] at h
  obtain ⟨_, heq⟩ := Option.ite_none_right_eq_some.1 h
  rw [← Option.some.inj heq]
  exact this

/-- A text from the first thing on that is neither blank nor a comment. -/
def skipLayout? (text : List Char) : Option (List Char) :=
  match text with
  | [] => some []
  | '\r' :: '\n' :: rest => skipLayout? rest
  | '#' :: rest =>
    match _h : skipComment? rest with
    | some after =>
      have := length_le_of_skipComment? _h
      skipLayout? after
    | none => none
  | c :: rest => if isSpace c || c == '\n' then skipLayout? rest else some text
termination_by text.length

/-- What follows the end of an entry's line: blanks, a comment perhaps, then a line feed or the
end of the text. -/
def endLine? (text : List Char) : Option (List Char) :=
  match text.dropWhile isSpace with
  | [] => some []
  | '\n' :: rest => some rest
  | '\r' :: '\n' :: rest => some rest
  | '#' :: rest => skipComment? rest
  | _ => none

/-- The key at the start of a text, and what follows it. -/
def scanKey? (text : List Char) : Option (List Char × List Char) :=
  match text with
  | '"' :: rest => scanBasic? rest
  | '\'' :: rest => scanLiteral? rest
  | _ =>
    let key := text.takeWhile isBareChar
    if key.isEmpty then none else some (key, text.dropWhile isBareChar)

/-- The string at the start of a text, and what follows it. -/
def scanString? : List Char → Option (List Char × List Char)
  | '"' :: '"' :: '"' :: rest => scanLongBasic? (dropNewline rest)
  | '\'' :: '\'' :: '\'' :: rest => scanLongLiteral? (dropNewline rest)
  | '"' :: rest => scanBasic? rest
  | '\'' :: rest => scanLiteral? rest
  | _ => none

/-- The entry at the start of a text, and what follows its line. -/
def scanEntry? (text : List Char) : Option ((String × String) × List Char) := do
  let (key, rest) ← scanKey? text
  match rest.dropWhile isSpace with
  | '=' :: rest =>
    let (value, rest) ← scanString? (rest.dropWhile isSpace)
    let rest ← endLine? rest
    return ((String.ofList key, String.ofList value), rest)
  | _ => none

end FormulaSheet.Toml
