/-
The command line on a real disk and console.

Nothing is decided here: the run is `Command.run`, and this module says how files are read and
written and where text is printed.
-/
import FormulaSheet.Command.Run

namespace FormulaSheet.Main

/-- The number of an error of the system, from which some of its calls take the sign. -/
def errorNumber (code : UInt32) : UInt32 :=
  min code (-code)

/-- The file error that an error of the system stands for. -/
def fileError (e : IO.Error) : FileError :=
  match e with
  | .noFileOrDirectory .. => .missing
  | .inappropriateType _ code _ =>
    if errorNumber code == 20 then .notDirectory
    else if errorNumber code == 21 then .isDirectory
    else .other (toString e)
  | .invalidArgument _ code _ =>
    if errorNumber code == 36 then .nameTooLong else .other (toString e)
  | .permissionDenied _ code _ =>
    if errorNumber code == 13 then .other "Permission denied (os error 13)"
    else .other (toString e)
  | e => .other (toString e)

/-- The outcome of an action on files. -/
def attempt {α : Type} (action : IO α) : IO (Except FileError α) := do
  match ← action.toBaseIO with
  | .ok a => return .ok a
  | .error e => return .error (fileError e)

/-- Files on disk. -/
def disk : FileSystem IO where
  size path := do
    match ← attempt (IO.FS.readBinFile path) with
    | .ok bytes => return .ok bytes.size
    | .error e =>
      -- What is there has a size even if it cannot be read; why it cannot shows when it is.
      match ← attempt (IO.FS.realPath path) with
      | .ok _ => return .ok FileStore.directorySize
      | .error _ => return .error e
  read path := attempt (IO.FS.readBinFile path)
  write path bytes := attempt (IO.FS.writeBinFile path bytes)

/-- Where the user's own settings file would be. -/
def userSettings : IO (Option String) := do
  match ← IO.getEnv "XDG_CONFIG_HOME" with
  | some folder =>
    if folder.startsWith "/" then return some (folder ++ "/gridcalc/config.toml") else atHome
  | none => atHome
where
  atHome : IO (Option String) := do
    return (← IO.getEnv "HOME").map (· ++ "/.config/gridcalc/config.toml")

end FormulaSheet.Main

/-- Run the command line. -/
def main (arguments : List String) : IO UInt32 := do
  let out ← IO.getStdout
  let err ← IO.getStderr
  FormulaSheet.Command.run
    { files := FormulaSheet.Main.disk
      out := out.putStr
      err := err.putStr
      userSettings := ← FormulaSheet.Main.userSettings }
    arguments
