/-
What a change of a cell affects.

When a cell changes, so may every cell whose formula mentions it, directly or through other
formulas.  The walk goes from mentioned names to their mentioners, depth first and in the order
of the names, and keeps the path it stands on.  A name that is met again while it stands on the
path closes a cycle, and the walk ends there.  Otherwise the names are listed in the reverse of
the order in which they are left: the start first, and every name after all that it depends on.

The walk keeps an explicit stack of frames.  It ends because every step either meets a
mentioner for the first time or shortens what the frames still have to look at.

* **`MentionIndex.affected`** — the start and all that depend on it, in an order in which they
  can be computed again, or a cycle.
-/
import FormulaSheet.Mention.Index

namespace FormulaSheet

/-- Names each of which mentions the next; the first and the last are the same. -/
structure Cycle where
  path : List String
deriving Repr, DecidableEq

namespace Cycle

/-- The name at which the cycle is closed. -/
def cell (c : Cycle) : String :=
  c.path.head?.getD ""

/-- The wording of a cycle. -/
def message (c : Cycle) : String :=
  "Circular dependency: " ++ " -> ".intercalate c.path

end Cycle

namespace MentionIndex

/-- All cells whose formula mentions something. -/
def allMentioners (index : MentionIndex) : List String :=
  index.backward.toList.flatMap (·.2.toList)

/-- A mentioner of some name is among all mentioners. -/
theorem mem_allMentioners {index : MentionIndex} {name mentioned : String}
    (h : name ∈ index.mentioners mentioned) : name ∈ index.allMentioners := by
  unfold mentioners Links.neighbours at h
  cases hget : index.backward[mentioned]? with
  | none => simp [hget] at h
  | some set =>
    exact List.mem_flatMap.2 ⟨(mentioned, set),
      Std.ExtTreeMap.mem_toList_iff_getElem?_eq_some.2 hget, by simpa [hget] using h⟩

/-- How many mentioners the walk has not met. -/
def unmet (index : MentionIndex) (met : NameSet) : Nat :=
  index.allMentioners.countP (!met.contains ·)

/-- Meeting a mentioner leaves fewer to be met. -/
theorem unmet_insert_lt {index : MentionIndex} {met : NameSet} {name : String}
    (hname : name ∈ index.allMentioners) (hmet : ¬ met.contains name = true) :
    index.unmet (met.insert name) < index.unmet met :=
  NameSet.countP_insert_lt hname hmet

/-- A name on the path of the walk, and those of its mentioners not yet looked at. -/
structure Frame where
  name : String
  pending : List String

/-- A frame that has looked at none of its mentioners. -/
def enter (index : MentionIndex) (name : String) : Frame :=
  ⟨name, index.mentioners name⟩

/-- The cycle closed by meeting `name` again, from the names on the path, last first. -/
def closeCycle (name : String) (path : List String) : Cycle :=
  ⟨name :: (path.takeWhile (· ≠ name) ++ [name])⟩

/-- What the frames of a walk still have to look at. -/
def toLookAt : List Frame → Nat
  | [] => 0
  | frame :: rest => frame.pending.length + 1 + toLookAt rest

/-- Whether all that the frames of a walk still have to look at are mentioners. -/
def Pending (index : MentionIndex) (stack : List Frame) : Prop :=
  ∀ frame ∈ stack, ∀ name ∈ frame.pending, name ∈ index.allMentioners

/-- Walk on from a stack of frames, innermost first, having met some names and left others.
The names left come last left first. -/
def walk (index : MentionIndex) (met : NameSet) (left : List String) (stack : List Frame)
    (h : index.Pending stack) : Except Cycle (List String) :=
  match stack with
  | [] => .ok left
  | ⟨name, []⟩ :: outer =>
    -- All mentioners of `name` have been left, so `name` is left in front of them.
    walk index met (name :: left) outer fun frame hframe => h frame (.tail _ hframe)
  | ⟨name, next :: pending⟩ :: outer =>
    have hrest : index.Pending (⟨name, pending⟩ :: outer) := by
      intro frame hframe x hx
      rcases List.mem_cons.1 hframe with rfl | hframe
      · exact h _ (.head _) x (.tail _ hx)
      · exact h _ (.tail _ hframe) x hx
    if met.contains next then
      -- Met before: on the path it closes a cycle, elsewhere it is already listed.
      if next = name ∨ outer.any (·.name == next) then
        .error (closeCycle next (name :: outer.map Frame.name))
      else walk index met left (⟨name, pending⟩ :: outer) hrest
    else
      walk index (met.insert next) left (index.enter next :: ⟨name, pending⟩ :: outer) (by
        intro frame hframe x hx
        rcases List.mem_cons.1 hframe with rfl | hframe
        · exact mem_allMentioners hx
        · exact hrest _ hframe x hx)
termination_by (index.unmet met, toLookAt stack)
decreasing_by
  · exact Prod.Lex.right _ (by simp [toLookAt])
  · exact Prod.Lex.right _ (by simp [toLookAt])
  · exact Prod.Lex.left _ _ (unmet_insert_lt (h _ (.head _) _ (.head _)) ‹_›)

/-- A cell and all cells that depend on it, each after all listed cells that it mentions; or
a cycle of mentions that a change of the cell runs into. -/
def affected (index : MentionIndex) (start : String) : Except Cycle (List String) :=
  walk index {start} [] [index.enter start] (by
    intro frame hframe x hx
    rw [List.mem_singleton.1 hframe] at hx
    exact mem_allMentioners hx)

end MentionIndex

end FormulaSheet
