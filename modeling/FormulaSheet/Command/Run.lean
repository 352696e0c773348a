/-
A run of the command line.

A run reads the settings and the sheet, makes all edits, answers all queries, prints the sheet
if asked, and only then writes the output file, so nothing is written unless everything before
went well.  A value that is an error is printed like any other, but shows in the exit code.

The run is the same program on a real disk and console and on a `World`, which holds the files
and what was printed.

* **`run`** — do what a list of arguments asks for; the answer is the exit code;
* **`evaluateCommand`** — the value of a formula by itself, with the sheet's cells for its
  variables;
* **`World`** — files and printed text, as the state of a run.
-/
import FormulaSheet.Command.Arguments
import FormulaSheet.Document.Storage
import FormulaSheet.Document.Value
import FormulaSheet.Settings.Load

namespace FormulaSheet.Command

/-- What a run works with. -/
structure Host (m : Type → Type) where
  files : FileSystem m
  /-- Print to the standard output. -/
  out : String → m Unit
  /-- Print to the standard error. -/
  err : String → m Unit
  /-- Where the user's own settings file would be. -/
  userSettings : Option String

/-- A step of a run.  A failure is what went wrong and what lies behind it, outermost first. -/
abbrev Task (m : Type → Type) := ExceptT (List String) m

section

variable {m : Type → Type} [Monad m]

/-- Fail with a message and what lies behind it. -/
def failWith {α : Type} (message : String) (causes : List String) : Task m α :=
  throw (message :: causes)

/-- Print a line to the standard error if the run is verbose. -/
def note (host : Host m) (o : Options) (line : String) : Task m Unit :=
  if o.verbose then host.err (line ++ "\n") else pure ()

/-- The settings file of a run: the one given, else the user's own if it is there and wanted. -/
def settingsPath (host : Host m) (o : Options) : m (Option String) := do
  match o.config, host.userSettings with
  | some path, _ => return some path
  | none, some path =>
    if o.noConfig then return none
    else match ← host.files.size path with
      | .ok _ => return some path
      | .error _ => return none
  | none, none => return none

/-- What the sheet of a run is made with. -/
def readConfig (host : Host m) (o : Options) : Task m SheetConfig := do
  let path ← ExceptT.lift (settingsPath host o)
  match ← ExceptT.lift (Settings.loadConfig host.files path) with
  | .ok config => return config
  | .error e => failWith "failed to load configuration" e.causes

/-- The sheet of a run before its edits. -/
def openSheet (host : Host m) (o : Options) (config : SheetConfig) : Task m Document := do
  match o.file with
  | none => return .new config
  | some path =>
    let loaded ← ExceptT.lift (Document.loadFile host.files config path)
    match loaded.answer with
    | .ok doc =>
      note host o s!"Loaded {path} (version {doc.version})"
      return doc
    | .error e => failWith s!"failed to load {path}" (DocumentError.storage e).causes

/-- Make one edit. -/
def makeEdit (host : Host m) (o : Options) (doc : Document) (edit : String × String) :
    Task m Document := do
  let (name, content) := edit
  let reply := doc.edit name content
  match reply.answer with
  | .ok affected =>
    note host o ("Set " ++ name ++ " (affects: " ++ ", ".intercalate affected ++ ")")
    return reply.document
  | .error e => failWith s!"cannot set {name}" e.causes

/-- The number that a formula by itself finds in a cell; reading the cell may compute it. -/
def lookUp (name : String) : StateM Document (Option Float) := fun doc =>
  let reply := doc.value name
  (match reply.answer with
    | .ok value => value.number?
    | .error _ => none,
   reply.document)

/-- The text of a formula by itself: without blanks around it, then without an `=` before it. -/
def commandFormula (text : String) : List Char :=
  match Text.trim text.toList with
  | '=' :: rest => rest
  | chars => chars

/-- The value of a formula by itself.  Its variables are cells of the sheet, but the rules for
names do not apply to it. -/
def evaluateCommand (doc : Document) (text : String) :
    Except FormulaError CellValue × Document :=
  match Formula.parse {} (commandFormula text) with
  | .error e => (.error e, doc)
  | .ok f =>
    let (result, doc) := (f.evaluate lookUp).run doc
    (.ok (.ofResult result), doc)

/-- The answer to a query. -/
def answer (doc : Document) (query : Query) : Task m (CellValue × Document) :=
  match query with
  | .get name =>
    let reply := doc.value name
    match reply.answer with
    | .ok value => pure (value, reply.document)
    | .error e => failWith s!"cannot read {name}" e.causes
  | .command text =>
    match evaluateCommand doc text with
    | (.ok value, doc) => pure (value, doc)
    | (.error e, _) =>
      failWith ("invalid formula '" ++ String.ofList (commandFormula text) ++ "'") [e.message]

/-- Answer queries in order and print the answers; also tell whether none was an error. -/
def answerAll (host : Host m) (doc : Document) : List Query → Task m (Bool × Document)
  | [] => return (true, doc)
  | query :: rest => do
    let (value, doc) ← answer doc query
    host.out (value.display ++ "\n")
    let (allFine, doc) ← answerAll host doc rest
    return (!value.isError && allFine, doc)

/-- Print the cells with the given names. -/
def printCells (host : Host m) (doc : Document) : List String → Task m Document
  | [] => return doc
  | name :: rest => do
    let input ← match doc.contents name with
      | .ok contents => pure (contents.elim "" Contents.input)
      | .error e => throw e.causes
    let reply := doc.value name
    match reply.answer with
    | .ok value =>
      host.out (name ++ ": " ++ input ++ " => " ++ value.display ++ "\n")
      printCells host reply.document rest
    | .error e => throw e.causes

/-- Write the sheet to the output file of a run, if it has one. -/
def writeOutput (host : Host m) (o : Options) (doc : Document) : Task m Unit := do
  match o.output with
  | some path =>
    match ← host.files.write path doc.fileText.toUTF8 with
    | .ok () => note host o s!"Saved to {path}"
    | .error e => failWith s!"cannot create {path}" [e.message]
  | none => if doc.modified then note host o "Edits not saved (use --output)"

/-- Do what options ask for; the answer tells whether no answer was an error. -/
def perform (host : Host m) (o : Options) : Task m Bool := do
  let config ← readConfig host o
  let doc ← openSheet host o config
  let doc ← o.edits.foldlM (makeEdit host o) doc
  let (allFine, doc) ← answerAll host doc o.queries
  let doc ← if o.dump then printCells host doc doc.names else pure doc
  -- Nothing before this line writes a file.
  writeOutput host o doc
  return allFine

/-- Do what a list of arguments asks for; the answer is the exit code. -/
def run (host : Host m) (arguments : List String) : m UInt32 := do
  match Options.parse arguments with
  | .error e =>
    host.err ("Error: " ++ e.message ++ "\n" ++ usage)
    return 1
  | .ok none =>
    host.err usage
    return 0
  | .ok (some o) =>
    match ← (perform host o).run with
    | .ok allFine => return if allFine then 0 else 1
    | .error causes =>
      host.err ("Error: " ++ ": ".intercalate causes ++ "\n")
      return 1

end

/-- Files, and what was printed. -/
structure World where
  files : FileStore := ∅
  out : String := ""
  err : String := ""

namespace World

/-- A world to run in, with the user's own settings where they usually are. -/
def host : Host (StateM World) where
  files :=
    { size := fun path => do return (← get).files.size path
      read := fun path => do return (← get).files.read path
      write := fun path bytes => do
        let world ← get
        match world.files.write path bytes with
        | .ok files => set { world with files }; return .ok ()
        | .error e => return .error e }
  out text := modify fun world => { world with out := world.out ++ text }
  err text := modify fun world => { world with err := world.err ++ text }
  userSettings := some ".config/gridcalc/config.toml"

/-- The exit code of a run, and the world after it. -/
def run (arguments : List String) (world : World) : UInt32 × World :=
  (Command.run host arguments).run world

end World

end FormulaSheet.Command
