/-
Settings.

A settings file has up to four entries, each at most once: the version of the sheet's files,
how names are normalized, which names there are, and a pattern for them.  The pattern is set
between anchors as it is written, so it is the anchored text that has to be well formed.

* **`Settings.read?`** — a text as settings, if it holds nothing else;
* **`Settings.rules?`** — the rules for names, if the pattern is well formed;
* **`Settings.config?`** — what documents are made with under these settings.
-/
import FormulaSheet.Document.Basic
import FormulaSheet.Pattern.Reading
import FormulaSheet.Toml.Entry

namespace FormulaSheet

/-- How the letters of names are normalized. -/
inductive LetterCase where
  | none
  | upper
  | lower
deriving Repr, DecidableEq

namespace LetterCase

/-- The setting with a name. -/
def ofName? : String → Option LetterCase
  | "none" => some none
  | "upper" => some upper
  | "lower" => some lower
  | _ => Option.none

/-- A name in normal form.  Only ASCII letters have case here. -/
def normalize (letterCase : LetterCase) (name : String) : String :=
  match letterCase with
  | none => name
  | upper => name.map Char.toUpper
  | lower => name.map Char.toLower

end LetterCase

/-- Which names there are: any, or references alone. -/
inductive NameStyle where
  | any
  | references
deriving Repr, DecidableEq

namespace NameStyle

/-- The setting with a name. -/
def ofName? : String → Option NameStyle
  | "any" => some any
  | "a1" => some references
  | _ => none

/-- Whether a name is of a style. -/
def admits : NameStyle → String → Bool
  | any, _ => true
  | references, name => isReferenceName name

end NameStyle

/-- What a settings file says; what it does not say is absent. -/
structure Settings where
  version : Option String := none
  letterCase : Option LetterCase := none
  style : Option NameStyle := none
  pattern : Option String := none
deriving Repr, DecidableEq

namespace Settings

/-- Settings with one more entry.  An entry must be known, make sense, and be the first of its
key. -/
def add? (s : Settings) (key value : String) : Option Settings :=
  match key with
  | "version" => if s.version.isSome then none else some { s with version := some value }
  | "normalize" =>
    if s.letterCase.isSome then none
    else (LetterCase.ofName? value).map fun letterCase => { s with letterCase := some letterCase }
  | "names" =>
    if s.style.isSome then none
    else (NameStyle.ofName? value).map fun style => { s with style := some style }
  | "name_pattern" => if s.pattern.isSome then none else some { s with pattern := some value }
  | _ => none

/-- How many keys have no entry yet. -/
def missing (s : Settings) : Nat :=
  s.version.elim 1 (fun _ => 0) + s.letterCase.elim 1 (fun _ => 0) +
    s.style.elim 1 (fun _ => 0) + s.pattern.elim 1 (fun _ => 0)

/-- An entry fills a key that had none. -/
theorem missing_lt_of_add? {s t : Settings} {key value : String} (h : s.add? key value = some t) :
    t.missing < s.missing := by
  rcases s with ⟨version, letterCase, style, pattern⟩
  simp only [add?] at h
  split at h
  · cases version <;> simp at h
    simp [missing, ← h]
  · cases letterCase <;> simp at h
    obtain ⟨_, _, rfl⟩ := h
    simp [missing]
  · cases style <;> simp at h
    obtain ⟨_, _, rfl⟩ := h
    simp [missing]
  · cases pattern <;> simp at h
    simp [missing, ← h]
  · simp at h

/-- Add the entries of a text to settings. -/
def addAll? (s : Settings) (text : List Char) : Option Settings :=
  match Toml.skipLayout? text with
  | none => none
  | some [] => some s
  | some entries =>
    match Toml.scanEntry? entries with
    | none => none
    | some ((key, value), rest) =>
      match _hadd : s.add? key value with
      | none => none
      | some s => addAll? s rest
termination_by s.missing
decreasing_by exact missing_lt_of_add? _hadd

/-- A text as settings.  A byte order mark may stand before it. -/
def read? (text : String) : Option Settings :=
  match text.toList with
  | '\ufeff' :: rest => addAll? {} rest
  | chars => addAll? {} chars

/-- The pattern that whole names have to match. -/
def anchored (pattern : String) : String :=
  "^(?:" ++ pattern ++ ")$"

/-- The rules for names, unless the pattern is not well formed. -/
def rules? (s : Settings) : Option NameRules :=
  let normalize := (s.letterCase.getD .none).normalize
  let hasStyle := (s.style.getD .any).admits
  match s.pattern with
  | none => some { normalize, admits := hasStyle }
  | some pattern =>
    (Pattern.read? (anchored pattern).toList).map fun p =>
      { normalize, admits := fun name => hasStyle name && p.isFound name }

/-- What documents are made with, unless the pattern is not well formed. -/
def config? (s : Settings) : Option SheetConfig :=
  s.rules?.map fun rules => { rules, version := s.version.getD "default" }

end Settings

end FormulaSheet
