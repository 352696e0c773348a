/-
Quoted text.

In a sheet file a text stands between double quotes.  A quote, a backslash, a line feed, a
carriage return and a tab are written with a backslash before them.  Reading is more lenient
than writing: any character may stand after a backslash, and those that mean nothing there are
kept together with it.

* **`quote`** — a text between quotes;
* **`unquote?`** — the text between quotes, if the quotes are where they should be.
-/
namespace FormulaSheet.SheetFile

/-- How one character is written between quotes. -/
def escapeChar : Char → List Char
  | '\\' => ['\\', '\\']
  | '"' => ['\\', '"']
  | '\n' => ['\\', 'n']
  | '\r' => ['\\', 'r']
  | '\t' => ['\\', 't']
  | c => [c]

/-- What a backslash and the character after it mean. -/
def unescapeChar : Char → List Char
  | '\\' => ['\\']
  | '"' => ['"']
  | 'n' => ['\n']
  | 'r' => ['\r']
  | 't' => ['\t']
  | c => ['\\', c]

/-- A text between quotes. -/
def quote (text : List Char) : List Char :=
  '"' :: (text.flatMap escapeChar ++ ['"'])

/-- The text that stands between quotes: no quote in it is bare, and its last backslash has a
character after it. -/
def decode? : List Char → Option (List Char)
  | [] => some []
  | '"' :: _ => none
  | ['\\'] => none
  | '\\' :: c :: rest => (decode? rest).map (unescapeChar c ++ ·)
  | c :: rest => (decode? rest).map (c :: ·)

/-- The text between the quotes that a text starts and ends with. -/
def unquote? : List Char → Option (List Char)
  | '"' :: rest => if rest.getLast? = some '"' then decode? rest.dropLast else none
  | _ => none

end FormulaSheet.SheetFile
