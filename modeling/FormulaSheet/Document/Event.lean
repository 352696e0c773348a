/-
What a document reports while it works.

Operations report what they do as they do it, to whoever keeps a log.  An event says what
happened; its level and its wording are functions of it.

* **`Event.level`**, **`Event.text`** — how an event is logged;
* **`Event.line`** — both in one line.
-/
import FormulaSheet.Formula.Basic
import FormulaSheet.Mention.Affected
import FormulaSheet.Text.Logged

namespace FormulaSheet

/-- How much a log entry matters. -/
inductive Level where
  | trace
  | debug
  | info
  | warn
deriving Repr, DecidableEq

namespace Level

/-- The name of a level. -/
def name : Level → String
  | trace => "TRACE"
  | debug => "DEBUG"
  | info => "INFO"
  | warn => "WARN"

end Level

/-- What a document reports. -/
inductive Event where
  /-- An edit was made; so many cells have to be computed again. -/
  | edited (name : String) (unchanged : Bool) (affected : Nat)
  /-- The walk from a cell ran into a cycle. -/
  | cycleMet (start : String) (cycle : Cycle)
  /-- An edit was taken back. -/
  | editRefused (name : String) (cycle : Cycle)
  /-- A cell was asked for whose value was already computed. -/
  | cacheHit (name : String)
  | evaluating (name : String) (formula : Formula)
  | saved (cells : Nat) (version : String)
  | savedFile (path : String)
  | loadedFile (path : String) (cells : Nat)
  /-- A line of a file is about to be entered. -/
  | entering (line : Nat) (name input : String)
  | loadFailed (line : Nat) (name reason : String)

namespace Event

/-- How much an event matters. -/
def level : Event → Level
  | cacheHit .. | evaluating .. | entering .. => .trace
  | edited .. | cycleMet .. => .debug
  | saved .. | savedFile .. | loadedFile .. => .info
  | editRefused .. | loadFailed .. => .warn

/-- The wording of an event. -/
def text : Event → String
  | edited name unchanged affected =>
    s!"set {name} (unchanged: {unchanged}), {affected} cell(s) invalidated"
  | cycleMet start cycle =>
    s!"cycle detected while recalculating {start}: {Text.loggedList cycle.path}"
  | editRefused name cycle => s!"rejected edit to {name}: {cycle.message}"
  | cacheHit name => s!"cache hit for {name}"
  | evaluating name formula => s!"evaluating {name} = {formula.text}"
  | saved cells version => s!"saved {cells} cells (version {version})"
  | savedFile path => s!"saved {path}"
  | loadedFile path cells => s!"loaded {path} ({cells} cells)"
  | entering line name input => s!"line {line}: {name} = {Text.logged input}"
  | loadFailed line name reason => s!"load failed at line {line} ({name}): {reason}"

/-- An event as one line of a log. -/
def line (e : Event) : String :=
  e.level.name ++ " " ++ e.text

end Event

end FormulaSheet
