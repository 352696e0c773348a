/-
Settings files.

A settings file is read whole, unless it is larger than a settings file has any reason to be.

* **`Settings.load`** — the settings in a file;
* **`Settings.loadConfig`** — what documents are made with under the settings in a file.
-/
import FormulaSheet.Settings.Basic

namespace FormulaSheet

/-- Why there are no settings. -/
inductive SettingsError where
  | unreadable (path : String) (e : FileError)
  | tooLarge (path : String) (size : Nat)
  | badEntries
  | badPattern
deriving Repr, DecidableEq

namespace Settings

/-- The size of the largest settings file that is read, in bytes. -/
def sizeMax : Nat := 1048576

end Settings

namespace SettingsError

/-- The wording of a settings error. -/
def message : SettingsError → String
  | unreadable path e => s!"Failed to read {path}: {e.message}"
  | tooLarge path size =>
    s!"Refusing to read {path}: file too large ({size} bytes, max {Settings.sizeMax})"
  | badEntries => "Invalid config: not a list of known entries"
  | badPattern => "Invalid name_pattern: not a well-formed pattern"

/-- A settings error and what lies behind it. -/
def causes : SettingsError → List String
  | unreadable path e => [(unreadable path e).message, e.message]
  | e => [e.message]

end SettingsError

namespace Settings

variable {m : Type → Type} [Monad m]

/-- The settings in a file. -/
def load (files : FileSystem m) (path : String) : m (Except SettingsError Settings) := do
  match ← files.size path with
  | .error e => return .error (.unreadable path e)
  | .ok size =>
    if sizeMax < size then return .error (.tooLarge path size)
    else match (← files.read path).bind decodeText with
      | .error e => return .error (.unreadable path e)
      | .ok text =>
        match read? text with
        | some settings => return .ok settings
        | none => return .error .badEntries

/-- What documents are made with under the settings in a file, or by default if no file is
given. -/
def loadConfig (files : FileSystem m) (path : Option String) :
    m (Except SettingsError SheetConfig) := do
  match path with
  | none => return .ok {}
  | some path =>
    match ← load files path with
    | .error e => return .error e
    | .ok settings =>
      match settings.config? with
      | some config => return .ok config
      | none => return .error .badPattern

end Settings

end FormulaSheet
