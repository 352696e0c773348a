/-
Which formulas mention which names.

A mention is a pair of names: the formula in the first cell mentions the second name.  The
index keeps a set of mentions in both directions, so that either side of a name is found
without a search, and counts them.  Names are arbitrary texts and are listed in their order,
so what the index answers depends on the mentions alone and not on how they came about.

Neither direction ever holds a name with no neighbours, so two indexes with the same mentions
are equal.

* **`MentionIndex.add`**, **`MentionIndex.remove`** — put in or take out one mention;
* **`MentionIndex.replaceMentioned`**, **`MentionIndex.replaceMentioners`** — replace all
  mentions of one side of a name;
* **`MentionIndex.mentioned`**, **`MentionIndex.mentioners`** — the neighbours of a name.
-/
import Std.Data.ExtTreeMap
import Std.Data.ExtTreeSet

namespace FormulaSheet

/-- A set of names, listed in order. -/
abbrev NameSet := Std.ExtTreeSet String compare

/-- Of some names, fewer are outside a set once one of them is put in. -/
theorem NameSet.countP_insert_lt {names : List String} {set : NameSet} {name : String}
    (hname : name ∈ names) (hnot : ¬ set.contains name = true) :
    names.countP (!(set.insert name).contains ·) < names.countP (!set.contains ·) := by
  have hsub : ∀ rest : List String, rest.countP (!(set.insert name).contains ·) ≤
      rest.countP (!set.contains ·) := fun rest =>
    List.countP_mono_left fun x _ hx => by
      simp only [Std.ExtTreeSet.contains_insert, Bool.not_or, Bool.and_eq_true] at hx
      exact hx.2
  induction names with
  | nil => simp at hname
  | cons x rest ih =>
    rcases List.mem_cons.1 hname with rfl | hrest
    · have := hsub rest
      rw [List.countP_cons_of_neg (by simp), List.countP_cons_of_pos (by simp [hnot])]
      omega
    · have hlt := ih hrest
      have hx := hsub [x]
      simp only [List.countP_singleton] at hx
      simp only [List.countP_cons]
      omega

/-- The neighbours of names in one direction. -/
abbrev Links := Std.ExtTreeMap String NameSet compare

namespace Links

/-- The neighbours of a name. -/
def neighbours (links : Links) (name : String) : NameSet :=
  links[name]?.getD ∅

/-- Put in a link. -/
def link (links : Links) (name neighbour : String) : Links :=
  links.insert name ((links.neighbours name).insert neighbour)

/-- Take out a link, and the name with it if that was its last one. -/
def unlink (links : Links) (name neighbour : String) : Links :=
  let rest := (links.neighbours name).erase neighbour
  if rest.isEmpty then links.erase name else links.insert name rest

end Links

/-- A set of mentions. -/
structure MentionIndex where
  /-- From a cell to the names that its formula mentions. -/
  forward : Links := ∅
  /-- From a name to the cells whose formula mentions it. -/
  backward : Links := ∅
  /-- The number of mentions. -/
  size : Nat := 0

namespace MentionIndex

/-- Whether there are no mentions. -/
def isEmpty (index : MentionIndex) : Bool :=
  index.size == 0

/-- Whether the formula in `mentioner` mentions `mentioned`. -/
def contains (index : MentionIndex) (mentioner mentioned : String) : Bool :=
  (index.forward.neighbours mentioner).contains mentioned

/-- The names that a formula mentions, in order. -/
def mentioned (index : MentionIndex) (mentioner : String) : List String :=
  (index.forward.neighbours mentioner).toList

/-- The cells whose formula mentions a name, in order. -/
def mentioners (index : MentionIndex) (mentioned : String) : List String :=
  (index.backward.neighbours mentioned).toList

/-- Whether a formula mentions any name. -/
def hasMentioned (index : MentionIndex) (mentioner : String) : Bool :=
  index.forward.contains mentioner

/-- Whether any formula mentions a name. -/
def hasMentioners (index : MentionIndex) (mentioned : String) : Bool :=
  index.backward.contains mentioned

/-- How many cells mention a name. -/
def mentionerCount (index : MentionIndex) (mentioned : String) : Nat :=
  (index.backward.neighbours mentioned).size

/-- Put in a mention, if it is not there. -/
def add (index : MentionIndex) (mentioner mentioned : String) : MentionIndex :=
  if index.contains mentioner mentioned then index
  else
    { forward := index.forward.link mentioner mentioned
      backward := index.backward.link mentioned mentioner
      size := index.size + 1 }

/-- Take out a mention, if it is there. -/
def remove (index : MentionIndex) (mentioner mentioned : String) : MentionIndex :=
  if index.contains mentioner mentioned then
    { forward := index.forward.unlink mentioner mentioned
      backward := index.backward.unlink mentioned mentioner
      size := index.size - 1 }
  else index

/-- Make `names` all that the formula in `mentioner` mentions. -/
def replaceMentioned (index : MentionIndex) (mentioner : String) (names : List String) :
    MentionIndex :=
  let cleared := (index.mentioned mentioner).foldl (fun i name => i.remove mentioner name) index
  names.foldl (fun i name => i.add mentioner name) cleared

/-- Make `names` all cells that mention `mentioned`. -/
def replaceMentioners (index : MentionIndex) (mentioned : String) (names : List String) :
    MentionIndex :=
  let cleared := (index.mentioners mentioned).foldl (fun i name => i.remove name mentioned) index
  names.foldl (fun i name => i.add name mentioned) cleared

end MentionIndex

end FormulaSheet
