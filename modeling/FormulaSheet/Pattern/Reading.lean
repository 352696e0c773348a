/-
Reading a written pattern.

The signs of a pattern are put together from left to right.  A bar binds weaker than
succession, a repetition applies to the one item before it, and a group is an item.  The groups
that are open stand on a stack, each with its finished alternatives and the items of the one it
is in.  Two groups must not bear the same name.  How large a pattern becomes and how deep its
groups nest is not bounded.

* **`Pattern.read?`** — a written pattern as a pattern, if it is well formed.
-/
import FormulaSheet.Pattern.Basic
import FormulaSheet.Pattern.Sign

namespace FormulaSheet.Pattern

/-- A group that is open, or the whole pattern: whether case counted before it, its finished
alternatives, and the items of the alternative it is in, last first.  Flags leave no pattern
but stand among the items, since nothing can repeat them. -/
structure OpenGroup where
  caselessBefore : Bool
  alternatives : List Pattern := []
  items : List (Option Pattern) := []

namespace OpenGroup

/-- The pattern of the alternative that a group is in. -/
def alternative (g : OpenGroup) : Pattern :=
  (g.items.filterMap id).foldl (fun later item => seq item later) empty

/-- The pattern of a group that is closed. -/
def close (g : OpenGroup) : Pattern :=
  g.alternatives.foldl (fun later earlier => alt earlier later) g.alternative

/-- Put another item into the alternative that a group is in. -/
def add (g : OpenGroup) (item : Option Pattern) : OpenGroup :=
  { g with items := item :: g.items }

/-- Finish an alternative and begin the next. -/
def divide (g : OpenGroup) : OpenGroup :=
  { g with alternatives := g.alternative :: g.alternatives, items := [] }

/-- Repeat the last item, if there is one. -/
def repeated? (g : OpenGroup) (least : Nat) (most : Option Nat) : Option OpenGroup :=
  match g.items with
  | some item :: items => some { g with items := some (times item least most) :: items }
  | _ => none

end OpenGroup

/-- Put signs together, given the names of groups so far, whether case counts, the innermost
open group, and those around it. -/
def assemble? (names : List (List Char)) (caseless : Bool) (inner : OpenGroup)
    (outer : List OpenGroup) : List Sign → Option Pattern
  | [] => if outer.isEmpty then some inner.close else none
  | sign :: rest =>
    match sign with
    | .set s => assemble? names caseless (inner.add (some (one (s.folded caseless)))) outer rest
    | .start => assemble? names caseless (inner.add (some .start)) outer rest
    | .finish => assemble? names caseless (inner.add (some .finish)) outer rest
    | .wordEdge negated =>
      assemble? names caseless (inner.add (some (.wordEdge negated))) outer rest
    | .bar => assemble? names caseless inner.divide outer rest
    | .repetition least most =>
      match inner.repeated? least most with
      | some inner => assemble? names caseless inner outer rest
      | none => none
    | .flags change => assemble? names (change.getD caseless) (inner.add none) outer rest
    | .opening name change =>
      let names' := name.toList ++ names
      if name.any names.contains then none
      else assemble? names' (change.getD caseless) ⟨caseless, [], []⟩ (inner :: outer) rest
    | .closing =>
      match outer with
      | [] => none
      | next :: outer =>
        assemble? names inner.caselessBefore (next.add (some inner.close)) outer rest

/-- A written pattern as a pattern. -/
def read? (text : List Char) : Option Pattern :=
  (Sign.scanAll? text).bind (assemble? [] false ⟨false, [], []⟩ [])

end FormulaSheet.Pattern
