/-
Lines of a sheet file.

A line is blank or a comment, or it names a value before a colon: the version of the sheet if
the name starts with `@`, a cell otherwise.  The value of a cell is a formula, a quoted text or
a number; it is kept as the input that makes the cell hold it.

* **`SheetLine.read`** — what one line says, or what is wrong with it;
* **`splitLines`** — the lines of a text.
-/
import FormulaSheet.Number.Numeral
import FormulaSheet.SheetFile.Error
import FormulaSheet.SheetFile.Quoted
import FormulaSheet.Text.Blank

namespace FormulaSheet

/-- What one line of a sheet file says. -/
inductive SheetLine where
  | blank
  /-- The version attribute; no tag if its value is not a quoted text. -/
  | version (tag : Option String)
  | cell (name input : String)
deriving Repr, DecidableEq

namespace SheetFile

/-- The lines of a text, each without its line feed. -/
def splitLines (text : List Char) : List (List Char) :=
  text.foldr
    (fun c lines =>
      if c = '\n' then [] :: lines
      else match lines with
        | line :: rest => (c :: line) :: rest
        | [] => [[c]])
    [[]]

/-- The two sides of the first colon, without the blanks around them. -/
def splitColon (text : List Char) : Except LineFault (List Char × List Char) :=
  match text.dropWhile (· ≠ ':') with
  | [] => .error .noColon
  | _ :: value => .ok (Text.trim (text.takeWhile (· ≠ ':')), Text.trim value)

/-- The input that a cell's value stands for. -/
def cellInput (value : List Char) : Except LineFault (List Char) :=
  match value with
  | [] => .error .noValue
  | '=' :: _ => .ok value
  | '"' :: _ =>
    match unquote? value with
    | some text => .ok text
    | none => .error (.badQuotes (String.ofList value))
  | _ =>
    if (Number.readFinite? value).isSome then .ok value
    else .error (.badValue (String.ofList value))

/-- Whether a line without the blanks around it is blank or a comment. -/
def isSkipped : List Char → Bool
  | [] => true
  | first :: _ => first == '#'

end SheetFile

namespace SheetLine

open SheetFile

/-- What a line says, given without the blanks around it. -/
def readTrimmed (line : List Char) : Except LineFault SheetLine :=
  if isSkipped line then .ok .blank
  else match line with
    | '@' :: entry => do
      let (key, value) ← splitColon entry
      if key = "version".toList then return .version ((unquote? value).map String.ofList)
      else .error (.unknownAttribute (String.ofList key))
    | _ => do
      let (name, value) ← splitColon line
      if name.isEmpty then .error .noName
      else return .cell (String.ofList name) (String.ofList (← cellInput value))

/-- What a line says. -/
def read (line : List Char) : Except LineFault SheetLine :=
  readTrimmed (Text.trim line)

end SheetLine

end FormulaSheet
