/-
TOML strings.

A string stands between double quotes, with escapes, or between single quotes, without.  Either
kind may have three quotes on both sides; such a string may go on over several lines, a line
feed right after its opening is not part of it, up to two quotes may stand before its closing,
and between double quotes a backslash at the end of a line joins it to what follows the blanks.

* **`scanBasic?`**, **`scanLiteral?`** — a string of one line, after its opening quote, and what
  follows it;
* **`scanLongBasic?`**, **`scanLongLiteral?`** — the same after three quotes.
-/
import FormulaSheet.Text.Hex

namespace FormulaSheet.Toml

/-- Characters that may stand for themselves: the tab and all that are no control characters. -/
def isPlain (c : Char) : Bool :=
  c == '\t' || (32 ≤ c.toNat && c.toNat ≠ 127)

/-- The blanks of a line. -/
def isSpace (c : Char) : Bool :=
  c == ' ' || c == '\t'

/-- The character that a letter after a backslash stands for. -/
def escaped? : Char → Option Char
  | 'b' => some '\x08'
  | 't' => some '\t'
  | 'n' => some '\n'
  | 'f' => some '\x0c'
  | 'r' => some '\r'
  | '"' => some '"'
  | '\\' => some '\\'
  | _ => none

/-- The escape after a backslash and what follows it. -/
def scanEscape? : List Char → Option (Char × List Char)
  | [] => none
  | 'u' :: rest =>
    if rest.length < 4 then none else (Text.charOfHex? (rest.take 4)).map (·, rest.drop 4)
  | 'U' :: rest =>
    if rest.length < 8 then none else (Text.charOfHex? (rest.take 8)).map (·, rest.drop 8)
  | c :: rest => (escaped? c).map (·, rest)

/-- An escape takes at least one character. -/
theorem length_lt_of_scanEscape? {text rest : List Char} {c : Char}
    (h : scanEscape? text = some (c, rest)) : rest.length < text.length := by
  unfold scanEscape? at h
  split at h
  · simp at h
  · split at h
    · simp at h
    · simp at h
      obtain ⟨_, _, _, rfl⟩ := h
      rw [List.length_drop, List.length_cons]
      omega
  · split at h
    · simp at h
    · simp at h
      obtain ⟨_, _, _, rfl⟩ := h
      rw [List.length_drop, List.length_cons]
      omega
  · simp at h
    obtain ⟨_, _, _, rfl⟩ := h
    simp

/-- The string up to the closing double quote, and what follows it. -/
def scanBasic? (text : List Char) : Option (List Char × List Char) :=
  match text with
  | [] => none
  | '"' :: rest => some ([], rest)
  | '\\' :: rest =>
    match _h : scanEscape? rest with
    | some (c, after) =>
      have := length_lt_of_scanEscape? _h
      (scanBasic? after).map fun (s, rest) => (c :: s, rest)
    | none => none
  | c :: rest =>
    if isPlain c then (scanBasic? rest).map fun (s, rest) => (c :: s, rest) else none
termination_by text.length

/-- The string up to the closing single quote, and what follows it. -/
def scanLiteral? (text : List Char) : Option (List Char × List Char) :=
  match text.dropWhile (· ≠ '\'') with
  | _ :: rest =>
    let s := text.takeWhile (· ≠ '\'')
    if s.all isPlain then some (s, rest) else none
  | [] => none

/-- A text without the line feed it starts with, if it does. -/
def dropNewline : List Char → List Char
  | '\n' :: rest => rest
  | '\r' :: '\n' :: rest => rest
  | text => text

/-- What follows a backslash that joins lines: the blanks and line feeds after it, if there is a
line feed among the blanks before anything else. -/
def joinLines? (text : List Char) : Option (List Char) :=
  match text.dropWhile isSpace with
  | '\n' :: rest => some (rest.dropWhile fun c => isSpace c || c == '\n' || c == '\r')
  | '\r' :: '\n' :: rest => some (rest.dropWhile fun c => isSpace c || c == '\n' || c == '\r')
  | _ => none

/-- Joining lines takes no character back. -/
theorem length_le_of_joinLines? {text rest : List Char} (h : joinLines? text = some rest) :
    rest.length ≤ text.length := by
  have hspace := (List.dropWhile_sublist isSpace (l := text)).length_le
  unfold joinLines? at h
  split at h
  · next after hdrop =>
    have := (List.dropWhile_sublist (fun c => isSpace c || c == '\n' || c == '\r')
      (l := after)).length_le
    simp at h
    rw [hdrop, List.length_cons] at hspace
    rw [← h]
    omega
  · next after hdrop =>
    have := (List.dropWhile_sublist (fun c => isSpace c || c == '\n' || c == '\r')
      (l := after)).length_le
    simp at h
    rw [hdrop, List.length_cons, List.length_cons] at hspace
    rw [← h]
    omega
  · simp at h

/-- What closes a long string: three quotes, and before them up to two that belong to it. -/
def closeLong? (mark : Char) (text : List Char) : Option (List Char × List Char) :=
  let run := (text.takeWhile (· == mark)).length
  if run < 3 then none
  else some (List.replicate (min (run - 3) 2) mark, text.drop (min run 5))

/-- The string up to the closing three double quotes, and what follows them. -/
def scanLongBasic? (text : List Char) : Option (List Char × List Char) :=
  match closeLong? '"' text, text with
  | some closed, _ => some closed
  | none, [] => none
  | none, '\\' :: rest =>
    match _hjoin : joinLines? rest with
    | some after =>
      have := length_le_of_joinLines? _hjoin
      scanLongBasic? after
    | none =>
      match _h : scanEscape? rest with
      | some (c, after) =>
        have := length_lt_of_scanEscape? _h
        (scanLongBasic? after).map fun (s, rest) => (c :: s, rest)
      | none => none
  | none, '\r' :: '\n' :: rest => (scanLongBasic? rest).map fun (s, rest) => ('\n' :: s, rest)
  | none, c :: rest =>
    if isPlain c || c == '\n' then (scanLongBasic? rest).map fun (s, rest) => (c :: s, rest)
    else none
termination_by text.length

/-- The string up to the closing three single quotes, and what follows them. -/
def scanLongLiteral? (text : List Char) : Option (List Char × List Char) :=
  match closeLong? '\'' text, text with
  | some closed, _ => some closed
  | none, [] => none
  | none, '\r' :: '\n' :: rest => (scanLongLiteral? rest).map fun (s, rest) => ('\n' :: s, rest)
  | none, c :: rest =>
    if isPlain c || c == '\n' then (scanLongLiteral? rest).map fun (s, rest) => (c :: s, rest)
    else none
termination_by text.length

end FormulaSheet.Toml
