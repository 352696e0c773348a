/-
Sheet files.

A saved sheet is a version and the cells in the order of their lines, each with the input that
makes it.  A file must hold exactly one version, before all cells.  Only the form of a file is
checked here; whether names and formulas make sense shows when the cells are entered.

* **`SavedSheet.read`** — a text as a saved sheet, or its first bad line;
* **`readVersion`** — the version alone, without looking at the cells;
* **`sheetText`** — the text of a version and cells.
-/
import FormulaSheet.Document.Contents
import FormulaSheet.SheetFile.Line

namespace FormulaSheet

/-- A cell of a saved sheet and the line it stands on. -/
structure SavedCell where
  line : Nat
  name : String
  input : String
deriving Repr, DecidableEq

/-- A saved sheet. -/
structure SavedSheet where
  version : String
  cells : List SavedCell
deriving Repr, DecidableEq

namespace SavedSheet

open SheetFile

/-- Read on from line `number`, after a version, if any, and some cells, last first. -/
def readFrom (version : Option String) (cells : List SavedCell) (number : Nat) :
    List (List Char) → Except SheetFileError SavedSheet
  | [] =>
    match version with
    | some version => .ok ⟨version, cells.reverse⟩
    | none => .error .missingVersion
  | line :: rest =>
    match SheetLine.read line with
    | .error fault => .error (.badLine number fault)
    | .ok .blank => readFrom version cells (number + 1) rest
    | .ok (.version tag) =>
      -- Where the version stands is looked at before what it says.
      if version.isSome then .error (.badLine number .secondVersion)
      else if !cells.isEmpty then .error (.badLine number .lateVersion)
      else match tag with
        | some tag => readFrom (some tag) cells (number + 1) rest
        | none => .error (.badLine number .versionNotQuoted)
    | .ok (.cell name input) => readFrom version (⟨number, name, input⟩ :: cells) (number + 1) rest

/-- A text as a saved sheet. -/
def read (text : String) : Except SheetFileError SavedSheet :=
  readFrom none [] 1 (splitLines text.toList)

end SavedSheet

namespace SheetFile

/-- The version in the lines from `number` on.  Other attributes are passed over; the first
line that is no attribute ends the search. -/
def readVersionFrom (number : Nat) : List (List Char) → Except SheetFileError String
  | [] => .error .missingVersion
  | line :: rest =>
    let line := Text.trim line
    if isSkipped line then readVersionFrom (number + 1) rest
    else match line with
      | '@' :: entry =>
        match splitColon entry with
        | .error fault => .error (.badLine number fault)
        | .ok (key, value) =>
          if key = "version".toList then
            match unquote? value with
            | some tag => .ok (String.ofList tag)
            | none => .error (.badLine number .versionNotQuoted)
          else readVersionFrom (number + 1) rest
      | _ => .error .missingVersion

/-- The version of a sheet file, whatever its cells are. -/
def readVersion (text : String) : Except SheetFileError String :=
  readVersionFrom 1 (splitLines text.toList)

/-- The first line of every sheet file. -/
def header : String := "# gridcalc spreadsheet"

/-- The value of a cell as it stands in a file. -/
def valueText : Contents → String
  | .text s => String.ofList (quote s.toList)
  | contents => contents.input

/-- The text of a version and cells, in the order given. -/
def sheetText (version : String) (cells : List (String × Contents)) : String :=
  let lines := header :: ("@version: " ++ String.ofList (quote version.toList)) ::
    cells.map fun (name, contents) => name ++ ": " ++ valueText contents
  "\n".intercalate lines ++ "\n"

end SheetFile

end FormulaSheet
