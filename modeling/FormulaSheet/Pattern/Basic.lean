/-
Patterns and what they match.

A pattern matches parts of a text: from a place in it, a pattern reaches certain places, those
where a match that starts there can end.  A text is found to match if the pattern reaches any
place from any place, so a pattern that is to match a whole text must say so with `start` and
`finish`.

* **`Pattern.ends`** — the places that a pattern reaches;
* **`Pattern.isFound`** — whether some part of a text matches.
-/
namespace FormulaSheet

/-- A pattern over texts. -/
inductive Pattern where
  /-- Nothing, which matches anywhere. -/
  | empty
  /-- One character of a set. -/
  | one (set : Char → Bool)
  /-- The place before the first character. -/
  | start
  /-- The place after the last character. -/
  | finish
  /-- A place where a word starts or ends, or, negated, where none does. -/
  | wordEdge (negated : Bool)
  | seq (first second : Pattern)
  | alt (left right : Pattern)
  /-- A pattern so many times in a row; without an upper bound, any number from the lower. -/
  | times (p : Pattern) (least : Nat) (most : Option Nat)

namespace Pattern

/-- Characters that words are made of. -/
def isWordChar (c : Char) : Bool :=
  c.isAlphanum || c == '_'

/-- Whether there is a character of a word at a place. -/
def isWordAt (text : List Char) (place : Nat) : Bool :=
  text[place]?.any isWordChar

/-- Whether a word starts or ends at a place. -/
def isWordEdge (text : List Char) (place : Nat) : Bool :=
  isWordAt text place != (place != 0 && isWordAt text (place - 1))

/-- The places reached from some places by `count` steps. -/
def reachAfter (step : Nat → List Nat) : Nat → List Nat → List Nat
  | 0, places => places
  | count + 1, places =>
    if places.isEmpty then [] else reachAfter step count (places.flatMap step).eraseDups

/-- The places reached from some places by at most `count` steps. -/
def reachWithin (step : Nat → List Nat) : Nat → List Nat → List Nat
  | 0, places => places
  | count + 1, places =>
    if places.isEmpty then []
    else (places ++ reachWithin step count (places.flatMap step).eraseDups).eraseDups

/-- The places where a match that starts at a place can end.  A repetition without an upper
bound needs no more steps than there are characters, since a step that stays where it is leads
nowhere new. -/
def ends (text : List Char) : Pattern → Nat → List Nat
  | empty, place => [place]
  | one set, place => if text[place]?.any set then [place + 1] else []
  | start, place => if place = 0 then [place] else []
  | finish, place => if place = text.length then [place] else []
  | wordEdge negated, place => if isWordEdge text place != negated then [place] else []
  | seq first second, place => ((ends text first place).flatMap (ends text second)).eraseDups
  | alt left right, place => (ends text left place ++ ends text right place).eraseDups
  | times p least most, place =>
    let extra := match most with
      | some most => min (most - least) text.length
      | none => text.length
    reachWithin (ends text p) extra (reachAfter (ends text p) least [place])

/-- Whether some part of a text matches. -/
def isFound (p : Pattern) (text : String) : Bool :=
  (List.range (text.toList.length + 1)).any fun place => !(ends text.toList p place).isEmpty

end Pattern

end FormulaSheet
