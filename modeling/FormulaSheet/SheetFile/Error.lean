/-
What is wrong with a sheet file.

Either one line is bad, and then the first bad line is reported with its number counted from
one, or no line is bad and the version is missing.
-/
namespace FormulaSheet

/-- What is wrong with one line of a sheet file. -/
inductive LineFault where
  | noColon
  | unknownAttribute (key : String)
  | secondVersion
  | lateVersion
  | versionNotQuoted
  | noName
  | noValue
  | badQuotes (value : String)
  | badValue (value : String)
deriving Repr, DecidableEq

namespace LineFault

/-- The wording of a fault. -/
def message : LineFault → String
  | noColon => "Expected 'NAME: VALUE' format"
  | unknownAttribute key => s!"Unknown attribute: @{key}"
  | secondVersion => "Duplicate version attribute"
  | lateVersion => "Version attribute must precede all cells"
  | versionNotQuoted => "Version must be a quoted string"
  | noName => "Missing cell name"
  | noValue => "Missing value"
  | badQuotes value => s!"Unterminated text: {value}"
  | badValue value => s!"Invalid value: {value}. Use quotes for text."

end LineFault

/-- What is wrong with a sheet file. -/
inductive SheetFileError where
  | badLine (line : Nat) (fault : LineFault)
  | missingVersion
deriving Repr, DecidableEq

namespace SheetFileError

/-- The wording of a sheet file error. -/
def message : SheetFileError → String
  | badLine line fault => s!"Parse error at line {line}: {fault.message}"
  | missingVersion => "No version attribute found"

end SheetFileError

end FormulaSheet
