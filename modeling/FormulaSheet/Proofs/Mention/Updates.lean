/-
Updates of a mention index.

An index is updated by single mentions, or by replacing all mentions of one side of a name.
Whatever updates an index has gone through, it holds the pairs that the same updates leave of a
plain set, and these decide all that it answers.  So two histories that leave the same pairs leave
the same index.

* **`MentionUpdate`** — the updates, of an index and of a set of pairs;
* **`MentionIndex.Represents.update`** — both ways of updating agree;
* **`MentionIndex.Answers`** — what an index answers, in terms of pairs;
* **`MentionIndex.Represents.size_remove`** — the count is never taken below zero;
* **`MentionIndex.represents_updates`** — all of this after any updates of an empty index.
-/
import FormulaSheet.Proofs.Mention.Pairs
import FormulaSheet.Proofs.Text.Bytes

namespace FormulaSheet

/-- What can be done with an index. -/
inductive MentionUpdate where
  | add (mentioner mentioned : String)
  | remove (mentioner mentioned : String)
  | replaceMentioned (mentioner : String) (names : List String)
  | replaceMentioners (mentioned : String) (names : List String)

namespace MentionUpdate

/-- The pairs after an update. -/
def onPairs (pairs : Finset (String × String)) : MentionUpdate → Finset (String × String)
  | add a b => insert (a, b) pairs
  | remove a b => pairs.erase (a, b)
  | replaceMentioned a names => (pairs.filter fun p => p.1 ≠ a) ∪ names.toFinset.image (a, ·)
  | replaceMentioners b names => (pairs.filter fun p => p.2 ≠ b) ∪ names.toFinset.image (·, b)

end MentionUpdate

/-- The pairs that some updates leave of the empty set. -/
def pairsAfter (updates : List MentionUpdate) : Finset (String × String) :=
  updates.foldl MentionUpdate.onPairs ∅

/-- Names are listed in the order of their UTF-8 bytes, so without repeats, and these are all that
have a property. -/
def Lists (names : List String) (p : String → Prop) : Prop :=
  names.Pairwise (fun x y => Text.bytes x < Text.bytes y) ∧ ∀ x, x ∈ names ↔ p x

theorem lists_toList (set : NameSet) : Lists set.toList (· ∈ set) := by
  have hordered : set.toList.Pairwise fun x y => compare x y = .lt := Std.ExtTreeSet.ordered_toList
  refine ⟨hordered.imp fun hlt => ?_, fun _ => Std.ExtTreeSet.mem_toList⟩
  exact Text.bytes_lt_bytes (compareOfLessAndEq_eq_lt.1 hlt)

theorem Lists.nodup {names : List String} {p : String → Prop} (h : Lists names p) : names.Nodup :=
  h.1.imp fun hlt heq => by
    rw [heq] at hlt
    exact List.lt_irrefl _ hlt

theorem Lists.congr {names : List String} {p q : String → Prop} (h : Lists names p)
    (hpq : ∀ x, p x ↔ q x) : Lists names q :=
  ⟨h.1, fun x => (h.2 x).trans (hpq x)⟩

/-- A name is kept exactly if it has a neighbour. -/
theorem Links.Tight.contains_iff {links : Links} (h : links.Tight) {name : String} :
    links.contains name = true ↔ ∃ x, x ∈ links.neighbours name := by
  rw [Std.ExtTreeMap.contains_eq_isSome_getElem?, ← not_iff_not, not_exists,
    ← h.getElem?_eq_none_iff, Option.isSome_iff_ne_none, not_not]

namespace MentionIndex

/-- The index after an update. -/
def update (index : MentionIndex) : MentionUpdate → MentionIndex
  | .add a b => index.add a b
  | .remove a b => index.remove a b
  | .replaceMentioned a names => index.replaceMentioned a names
  | .replaceMentioners b names => index.replaceMentioners b names

/-- The index that some updates make of an empty one. -/
def afterUpdates (updates : List MentionUpdate) : MentionIndex :=
  updates.foldl update {}

/-- The single mentions that an update takes out and puts in, one after the other. -/
def singles (index : MentionIndex) : MentionUpdate → List MentionUpdate
  | .add a b => [.add a b]
  | .remove a b => [.remove a b]
  | .replaceMentioned a names => (index.mentioned a).map (.remove a) ++ names.map (.add a)
  | .replaceMentioners b names => (index.mentioners b).map (.remove · b) ++ names.map (.add · b)

theorem update_eq_foldl_singles (index : MentionIndex) (u : MentionUpdate) :
    index.update u = (index.singles u).foldl update index := by
  cases u with
  | add a b => rfl
  | remove a b => rfl
  | replaceMentioned a names =>
    -- a replacement is one fold that takes out, and then one that puts in
    rw [singles, List.foldl_append, List.foldl_map, List.foldl_map]
    rfl
  | replaceMentioners b names =>
    rw [singles, List.foldl_append, List.foldl_map, List.foldl_map]
    rfl

/-- What an index answers, if these are its pairs. -/
structure Answers (index : MentionIndex) (pairs : Finset (String × String)) : Prop where
  size : index.size = pairs.card
  isEmpty : index.isEmpty = true ↔ pairs = ∅
  contains : ∀ a b, index.contains a b = true ↔ (a, b) ∈ pairs
  hasMentioned : ∀ a, index.hasMentioned a = true ↔ ∃ b, (a, b) ∈ pairs
  hasMentioners : ∀ b, index.hasMentioners b = true ↔ ∃ a, (a, b) ∈ pairs
  mentionerCount : ∀ b, index.mentionerCount b = (pairs.filter fun p => p.2 = b).card
  mentioned : ∀ a, Lists (index.mentioned a) fun b => (a, b) ∈ pairs
  mentioners : ∀ b, Lists (index.mentioners b) fun a => (a, b) ∈ pairs

namespace Represents

variable {index index' : MentionIndex} {pairs pairs' : Finset (String × String)}

theorem update (h : index.Represents pairs) (u : MentionUpdate) :
    (index.update u).Represents (u.onPairs pairs) := by
  cases u with
  | add a b => exact h.add a b
  | remove a b => exact h.remove a b
  | replaceMentioned a names => exact h.replaceMentioned a names
  | replaceMentioners b names => exact h.replaceMentioners b names

theorem foldl_update (h : index.Represents pairs) (updates : List MentionUpdate) :
    (updates.foldl MentionIndex.update index).Represents
      (updates.foldl MentionUpdate.onPairs pairs) := by
  induction updates generalizing index pairs with
  | nil => exact h
  | cons u rest ih => exact ih (h.update u)

theorem afterUpdates (updates : List MentionUpdate) :
    (afterUpdates updates).Represents (pairsAfter updates) :=
  foldl_update .empty updates

/-- Indexes are the same exactly if their pairs are. -/
theorem eq_iff (h : index.Represents pairs) (h' : index'.Represents pairs') :
    index = index' ↔ pairs = pairs' := by
  constructor
  · rintro rfl
    -- the pairs are what the index says that it contains
    ext ⟨a, b⟩
    rw [← h.contains_iff, h'.contains_iff]
  · rintro rfl
    exact h.eq h'

/-- One is taken from the count only if there is a pair to be taken out. -/
theorem size_remove (h : index.Represents pairs) (a b : String) :
    (index.remove a b).size + (if index.contains a b then 1 else 0) = index.size := by
  rw [(h.remove a b).size, h.size]
  by_cases hab : (a, b) ∈ pairs
  · rw [if_pos (h.contains_iff.2 hab)]
    exact Finset.card_erase_add_one hab
  · rw [if_neg (fun hc => hab (h.contains_iff.1 hc)), Finset.erase_eq_of_notMem hab, add_zero]

theorem card_mentioners (h : index.Represents pairs) (b : String) :
    (index.backward.neighbours b).size = (pairs.filter fun p => p.2 = b).card := by
  have hnodup : (index.mentioners b).Nodup :=
    (lists_toList (index.backward.neighbours b)).nodup
  -- a mentioner is listed once, and makes one of these pairs
  have himage : pairs.filter (fun p => p.2 = b) =
      (index.mentioners b).toFinset.image fun a => (a, b) := by
    ext ⟨x, y⟩
    simp only [Finset.mem_filter, Finset.mem_image, List.mem_toFinset, Prod.mk.injEq]
    constructor
    · rintro ⟨hxy, rfl⟩
      exact ⟨x, h.mem_mentioners_iff.2 hxy, rfl, rfl⟩
    · rintro ⟨a, ha, rfl, rfl⟩
      exact ⟨h.mem_mentioners_iff.1 ha, rfl⟩
  rw [himage, Finset.card_image_of_injective _ (fun x y hxy => congrArg Prod.fst hxy),
    List.toFinset_card_of_nodup hnodup]
  exact Std.ExtTreeSet.length_toList.symm

theorem answers (h : index.Represents pairs) : index.Answers pairs where
  size := h.size
  isEmpty := by
    rw [isEmpty, beq_iff_eq, h.size, Finset.card_eq_zero]
  contains a b := h.contains_iff
  hasMentioned a := by
    rw [hasMentioned, h.tightForward.contains_iff]
    exact exists_congr fun b => h.forward a b
  hasMentioners b := by
    rw [hasMentioners, h.tightBackward.contains_iff]
    exact exists_congr fun a => h.backward a b
  mentionerCount b := h.card_mentioners b
  mentioned a := (lists_toList (index.forward.neighbours a)).congr fun b => h.forward a b
  mentioners b := (lists_toList (index.backward.neighbours b)).congr fun a => h.backward a b

end Represents

/-- After any updates of an empty index, with any names, both of its directions hold exactly the
pairs that the updates leave of the empty set, neither keeps a name without neighbours, and the
count is their number; so all that it answers is decided by these pairs, and the index itself is.
Every update takes out and puts in single mentions one after the other, and where it takes one
out there is one to be counted off. -/
theorem represents_updates (updates : List MentionUpdate) :
    let index := afterUpdates updates
    let pairs := pairsAfter updates
    index.Represents pairs ∧ index.Answers pairs ∧
      (∀ updates', afterUpdates updates' = index ↔ pairsAfter updates' = pairs) ∧
      (∀ u, index.update u = (index.singles u).foldl update index) ∧
      ∀ a b, (index.remove a b).size + (if index.contains a b then 1 else 0) = index.size := by
  intro index pairs
  have h : index.Represents pairs := .afterUpdates updates
  refine ⟨h, h.answers, fun updates' => ?_, index.update_eq_foldl_singles, h.size_remove⟩
  exact (Represents.afterUpdates updates').eq_iff h

end MentionIndex

end FormulaSheet
