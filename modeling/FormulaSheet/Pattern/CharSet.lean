/-
Sets of characters.

Patterns are only asked about cell names, which are ASCII, so a set says which ASCII characters
it has; two other characters matter because they are the same letters as `k` and `s` when
case does not count.  Whether it counts is only known where a set is used, so a set is a
function of that as well.  The sets that `\p{..}` gives by a property of characters are left out.

* **`CharSet.folded`** — a set with the other spellings of its letters;
* **`SetOperation.apply`** — intersection, difference and symmetric difference;
* **`namedSet?`** — the sets with a name of their own, such as `alpha`.
-/
import FormulaSheet.Text.Hex

namespace FormulaSheet.Pattern

/-- A set of characters, which may depend on whether case counts. -/
abbrev CharSet := Bool → Char → Bool

/-- The other spellings of a letter when case does not count. -/
def otherCases (c : Char) : List Char :=
  match c with
  | 'k' => ['K', '\u212a']
  | 'K' => ['k', '\u212a']
  | '\u212a' => ['k', 'K']
  | 's' => ['S', '\u017f']
  | 'S' => ['s', '\u017f']
  | '\u017f' => ['s', 'S']
  | c => if c.isUpper then [c.toLower] else if c.isLower then [c.toUpper] else []

namespace CharSet

/-- The empty set. -/
def none : CharSet := fun _ _ => false

/-- A set of characters that does not depend on whether case counts. -/
def of (accepts : Char → Bool) : CharSet := fun _ => accepts

/-- The characters from one to another. -/
def range (low high : Char) : CharSet := of fun c => low ≤ c && c ≤ high

/-- The characters of either set. -/
def union (a b : CharSet) : CharSet := fun caseless c => a caseless c || b caseless c

/-- All other characters. -/
def complement (a : CharSet) : CharSet := fun caseless c => !a caseless c

/-- A set with the other spellings of its letters, if case does not count. -/
def folded (a : CharSet) : CharSet := fun caseless c =>
  a caseless c || (caseless && (otherCases c).any (a caseless))

end CharSet

/-- How two sides of a class are put together. -/
inductive SetOperation where
  | intersection
  | difference
  | symmetricDifference

namespace SetOperation

/-- Put two sides together. -/
def apply : SetOperation → CharSet → CharSet → CharSet
  | intersection, a, b => fun caseless c => a caseless c && b caseless c
  | difference, a, b => fun caseless c => a caseless c && !b caseless c
  | symmetricDifference, a, b => fun caseless c => a caseless c != b caseless c

/-- The operation that two equal characters stand for. -/
def ofChar? : Char → Option SetOperation
  | '&' => some intersection
  | '-' => some difference
  | '~' => some symmetricDifference
  | _ => none

end SetOperation

/-- The set with a name, as in `[:name:]`. -/
def namedSet? : String → Option (Char → Bool)
  | "alnum" => some Char.isAlphanum
  | "alpha" => some Char.isAlpha
  | "ascii" => some (·.toNat < 128)
  | "blank" => some fun c => c == ' ' || c == '\t'
  | "cntrl" => some fun c => c.toNat < 32 || c.toNat == 127
  | "digit" => some Char.isDigit
  | "graph" => some fun c => 32 < c.toNat && c.toNat < 127
  | "lower" => some Char.isLower
  | "print" => some fun c => 32 ≤ c.toNat && c.toNat < 127
  | "punct" => some fun c => 32 < c.toNat && c.toNat < 127 && !c.isAlphanum
  | "space" => some fun c => 9 ≤ c.toNat && c.toNat ≤ 13 || c == ' '
  | "upper" => some Char.isUpper
  | "word" => some fun c => c.isAlphanum || c == '_'
  | "xdigit" => some fun c => (Text.hexDigit? c).isSome
  | _ => none

end FormulaSheet.Pattern
