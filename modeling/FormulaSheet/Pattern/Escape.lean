/-
Escapes in patterns.

After a backslash, punctuation stands for itself, a few letters stand for control characters,
for sets of characters or for places, and `x`, `u` and `U` spell a character by its code point.

Left out are `\p{..}` and `\P{..}`, which stand for a property of characters, and the places `\<`,
`\>`, `\b{start}`, `\b{end}` and their halves; a text with one of them is not read.

* **`scanEscape?`** — what a backslash and the characters after it stand for, and what follows.
-/
import FormulaSheet.Text.Blank
import FormulaSheet.Text.Hex

namespace FormulaSheet.Pattern

/-- Characters that `\w` stands for. -/
def isWord (c : Char) : Bool :=
  c.isAlphanum || c == '_' || c == '\u212a' || c == '\u017f'

/-- What stands after a backslash. -/
inductive Escape where
  | char (c : Char)
  | set (accepts : Char → Bool)
  | start
  | finish
  | wordEdge (negated : Bool)

namespace Escape

/-- What one character after a backslash stands for.  Letters and digits that mean nothing
there are reserved, and so is everything outside ASCII. -/
def ofChar? : Char → Option Escape
  | 'd' => some (set Char.isDigit)
  | 'D' => some (set (!·.isDigit))
  | 's' => some (set Text.isBlank)
  | 'S' => some (set (!Text.isBlank ·))
  | 'w' => some (set isWord)
  | 'W' => some (set (!isWord ·))
  | 'a' => some (char '\x07')
  | 'f' => some (char '\x0c')
  | 't' => some (char '\t')
  | 'n' => some (char '\n')
  | 'r' => some (char '\r')
  | 'v' => some (char '\x0b')
  | 'A' => some start
  | 'z' => some finish
  | 'b' => some (wordEdge false)
  | 'B' => some (wordEdge true)
  | c => if c.isAlphanum || c == '<' || c == '>' || 128 ≤ c.toNat then none else some (char c)

end Escape

/-- How many digits follow `\x`, `\u` and `\U` when no braces do. -/
def hexLength? : Char → Option Nat
  | 'x' => some 2
  | 'u' => some 4
  | 'U' => some 8
  | _ => none

/-- What a backslash and the characters after it stand for, given those characters, and what
follows. -/
def scanEscape? : List Char → Option (Escape × List Char)
  | [] => none
  | first :: rest =>
    match hexLength? first, rest with
    | none, _ => (Escape.ofChar? first).map fun escape => (escape, rest)
    | some _, '{' :: braced =>
      match braced.dropWhile (· ≠ '}') with
      | [] => none
      | _ :: after =>
        (Text.charOfHex? (braced.takeWhile (· ≠ '}'))).map fun c => (.char c, after)
    | some count, _ =>
      if rest.length < count then none
      else (Text.charOfHex? (rest.take count)).map fun c => (.char c, rest.drop count)

/-- An escape takes at least one character. -/
theorem length_lt_of_scanEscape? {text rest : List Char} {escape : Escape}
    (h : scanEscape? text = some (escape, rest)) : rest.length < text.length := by
  cases text with
  | nil => simp [scanEscape?] at h
  | cons first tail =>
    simp only [scanEscape?] at h
    split at h
    · simp at h
      obtain ⟨_, _, _, rfl⟩ := h
      simp
    · next braced _ =>
      have hle := (List.dropWhile_sublist (· ≠ '}') (l := braced)).length_le
      split at h
      · simp at h
      · next after hafter =>
        rw [hafter, List.length_cons] at hle
        simp at h
        obtain ⟨_, _, _, rfl⟩ := h
        rw [List.length_cons, List.length_cons]
        omega
    · split at h
      · simp at h
      · simp at h
        obtain ⟨_, _, _, rfl⟩ := h
        rw [List.length_drop, List.length_cons]
        omega

end FormulaSheet.Pattern
