/-
Command-line arguments.

Arguments are read from left to right.  An option that takes a value takes the next argument,
whatever it looks like.  A request for help ends the reading; an argument that is neither an
option nor the one file allowed ends it with an error.

* **`Options`** — what a command line asks for;
* **`Options.parse`** — arguments as options; no options if help was asked for.
-/
import FormulaSheet.Text.Blank

namespace FormulaSheet.Command

/-- Something to print: the value of a cell, or of a formula by itself. -/
inductive Query where
  | get (name : String)
  | command (formula : String)
deriving Repr, DecidableEq

/-- What a command line asks for. -/
structure Options where
  file : Option String := none
  edits : List (String × String) := []
  queries : List Query := []
  dump : Bool := false
  output : Option String := none
  config : Option String := none
  noConfig : Bool := false
  verbose : Bool := false
deriving Repr, DecidableEq

/-- What is wrong with a command line. -/
inductive ArgumentError where
  | missingValue (option : String)
  | unknownOption (argument : String)
  | unexpected (argument : String)
  | badEdit (argument : String)
deriving Repr, DecidableEq

namespace ArgumentError

/-- The wording of an argument error. -/
def message : ArgumentError → String
  | missingValue option => s!"{option} requires a value"
  | unknownOption argument => s!"Unknown option: {argument}"
  | unexpected argument => s!"Unexpected argument: {argument}"
  | badEdit argument => s!"Expected NAME=CONTENT, got '{argument}'"

end ArgumentError

/-- Options that take a value. -/
inductive ValueOption where
  | set
  | get
  | command
  | output
  | config
deriving Repr, DecidableEq

/-- Options that take no value. -/
inductive Switch where
  | help
  | dump
  | noConfig
  | verbose
deriving Repr, DecidableEq

/-- The option that takes a value and is spelled so. -/
def ValueOption.ofSpelling? : String → Option ValueOption
  | "-s" | "--set" => some .set
  | "-g" | "--get" => some .get
  | "-c" | "--command" => some .command
  | "-o" | "--output" => some .output
  | "--config" => some .config
  | _ => none

/-- The option that takes no value and is spelled so. -/
def Switch.ofSpelling? : String → Option Switch
  | "-h" | "--help" => some .help
  | "-d" | "--dump" => some .dump
  | "--no-config" => some .noConfig
  | "-v" | "--verbose" => some .verbose
  | _ => none

/-- The name and the content of an edit, at either side of its first `=`. -/
def splitEdit? (argument : String) : Option (String × String) :=
  let chars := argument.toList
  match chars.dropWhile (· ≠ '=') with
  | _ :: content =>
    some (String.ofList (Text.trim (chars.takeWhile (· ≠ '='))), String.ofList content)
  | [] => none

namespace Options

/-- Options with the value of another option. -/
def addValue (o : Options) (option : ValueOption) (value : String) :
    Except ArgumentError Options :=
  match option with
  | .set =>
    match splitEdit? value with
    | some edit => .ok { o with edits := o.edits ++ [edit] }
    | none => .error (.badEdit value)
  | .get => .ok { o with queries := o.queries ++ [.get value] }
  | .command => .ok { o with queries := o.queries ++ [.command value] }
  | .output => .ok { o with output := some value }
  | .config => .ok { o with config := some value }

/-- Options with another switch; none if it asks for help. -/
def addSwitch? (o : Options) : Switch → Option Options
  | .help => none
  | .dump => some { o with dump := true }
  | .noConfig => some { o with noConfig := true }
  | .verbose => some { o with verbose := true }

/-- Options with an argument that is no known option. -/
def addFile (o : Options) (argument : String) : Except ArgumentError Options :=
  if argument.startsWith "-" then .error (.unknownOption argument)
  else if o.file.isSome then .error (.unexpected argument)
  else .ok { o with file := some argument }

/-- Read on after some options; no options if help is asked for. -/
def parseFrom (o : Options) : List String → Except ArgumentError (Option Options)
  | [] => .ok (some o)
  | argument :: rest =>
    match ValueOption.ofSpelling? argument with
    | some option =>
      match rest with
      | [] => .error (.missingValue argument)
      | value :: rest =>
        match o.addValue option value with
        | .ok o => parseFrom o rest
        | .error e => .error e
    | none =>
      match Switch.ofSpelling? argument with
      | some switch =>
        match o.addSwitch? switch with
        | some o => parseFrom o rest
        | none => .ok none
      | none =>
        match o.addFile argument with
        | .ok o => parseFrom o rest
        | .error e => .error e

/-- Arguments as options; no options if help is asked for. -/
def parse (arguments : List String) : Except ArgumentError (Option Options) :=
  parseFrom {} arguments

end Options

/-- How the command line is used. -/
def usage : String :=
  "\n".intercalate [
    "Usage: gridcalc [OPTIONS] [FILE]",
    "",
    "Arguments:",
    "  [FILE]                    Spreadsheet file to open (.grd)",
    "",
    "Options:",
    "  -s, --set <NAME=CONTENT>  Set a cell (can be repeated)",
    "  -g, --get <NAME>          Print the value of a cell (can be repeated)",
    "  -c, --command <FORMULA>   Evaluate a formula against the sheet",
    "  -d, --dump                Print every non-empty cell",
    "  -o, --output <FILE>       Save the sheet after edits",
    "  --config <FILE>           Read settings from a TOML file",
    "  --no-config               Ignore the user config.toml",
    "  -v, --verbose             Print progress to stderr",
    "  -h, --help                Print help",
    ""]

end FormulaSheet.Command
