/-
The mention index as a set of pairs.

An index keeps two maps and a count; what it means is one finite set of pairs, mentioner first.
`Represents` ties the two together:

* **`Represents.add`**, **`Represents.remove`**, **`Represents.replaceMentioned`**,
  **`Represents.replaceMentioners`** — each operation on an index is the set operation on the pairs;
* **`Represents.eq`** — an index is determined by its pairs, because neither map keeps a name
  without neighbours;
* **`Represents.restore`** — putting the old mentions of a name back gives the old index back,
  maps and count alike.
-/
import FormulaSheet.Mention.Affected
import Mathlib.Data.Finset.Card
import Mathlib.Data.Finset.Image

namespace FormulaSheet

/-! ### Links in one direction -/

namespace Links

@[simp] theorem not_mem_neighbours_empty {name x : String} :
    x ∉ (∅ : Links).neighbours name := by
  simp [neighbours]

theorem mem_neighbours_link {links : Links} {name neighbour key x : String} :
    x ∈ (links.link name neighbour).neighbours key ↔
      (key = name ∧ x = neighbour) ∨ x ∈ links.neighbours key := by
  by_cases hkey : key = name
  · subst hkey
    simp [link, neighbours, eq_comm (a := x)]
  · simp [link, neighbours, Std.ExtTreeMap.getElem?_insert, hkey, Ne.symm hkey]

theorem mem_neighbours_unlink {links : Links} {name neighbour key x : String} :
    x ∈ (links.unlink name neighbour).neighbours key ↔
      ¬ (key = name ∧ x = neighbour) ∧ x ∈ links.neighbours key := by
  have herase : ∀ y, y ∈ (links.neighbours name).erase neighbour ↔
      y ≠ neighbour ∧ y ∈ links.neighbours name := by
    intro y
    rw [Std.ExtTreeSet.mem_erase, ne_eq, Std.compare_eq_iff_eq, eq_comm]
  by_cases hrest : ((links.neighbours name).erase neighbour).isEmpty = true
  · -- the last neighbour goes, and the name with it
    have hnone : ¬ (x ≠ neighbour ∧ x ∈ links.neighbours name) := by
      rw [← herase, Std.ExtTreeSet.isEmpty_iff.1 hrest]
      exact Std.ExtTreeSet.not_mem_empty
    simp only [unlink, hrest, if_true]
    by_cases hkey : key = name
    · subst hkey
      simpa [neighbours] using hnone
    · simp [neighbours, Std.ExtTreeMap.getElem?_erase, hkey, Ne.symm hkey]
  · simp only [unlink, hrest, Bool.false_eq_true, if_false]
    by_cases hkey : key = name
    · subst hkey
      simpa [neighbours] using herase x
    · simp [neighbours, Std.ExtTreeMap.getElem?_insert, hkey, Ne.symm hkey]

/-- No name is kept without neighbours. -/
def Tight (links : Links) : Prop :=
  ∀ name : String, links[name]? ≠ some ∅

theorem tight_empty : Tight ∅ := by
  intro name
  simp

theorem Tight.link {links : Links} (h : links.Tight) (name neighbour : String) :
    (links.link name neighbour).Tight := by
  intro key
  rw [Links.link, Std.ExtTreeMap.getElem?_insert]
  split
  · intro hempty
    exact Std.ExtTreeSet.insert_ne_empty (Option.some.inj hempty)
  · exact h key

theorem Tight.unlink {links : Links} (h : links.Tight) (name neighbour : String) :
    (links.unlink name neighbour).Tight := by
  intro key
  unfold Links.unlink
  by_cases hrest : ((links.neighbours name).erase neighbour).isEmpty = true
  · simp only [hrest, if_true, Std.ExtTreeMap.getElem?_erase]
    split
    · simp
    · exact h key
  · simp only [hrest, Bool.false_eq_true, if_false, Std.ExtTreeMap.getElem?_insert]
    split
    · intro hempty
      exact hrest (Std.ExtTreeSet.isEmpty_iff.2 (Option.some.inj hempty))
    · exact h key

/-- A name is kept exactly if it has a neighbour. -/
theorem Tight.getElem?_eq_none_iff {links : Links} (h : links.Tight) {name : String} :
    links[name]? = none ↔ ∀ x, x ∉ links.neighbours name := by
  constructor
  · intro hnone x hx
    simp [neighbours, hnone] at hx
  · intro hno
    cases hget : links[name]? with
    | none => rfl
    | some set =>
      refine absurd hget ?_
      have hset : set = ∅ := Std.ExtTreeSet.eq_empty_iff_forall_not_mem.2 fun x hx =>
        hno x (by simpa [neighbours, hget] using hx)
      rw [hset]
      exact h name

/-- Links are determined by the neighbours they give. -/
theorem Tight.eq {links links' : Links} (h : links.Tight) (h' : links'.Tight)
    (hmem : ∀ name x, x ∈ links.neighbours name ↔ x ∈ links'.neighbours name) :
    links = links' := by
  refine Std.ExtTreeMap.ext_getElem? fun name => ?_
  -- without neighbours a name is kept in neither, with some it is kept in both
  by_cases hnone : ∀ x, x ∉ links.neighbours name
  · rw [h.getElem?_eq_none_iff.2 hnone,
      h'.getElem?_eq_none_iff.2 fun x hx => hnone x ((hmem name x).2 hx)]
  · have hset : links.neighbours name = links'.neighbours name :=
      Std.ExtTreeSet.ext_mem (hmem name)
    have hsome : ∀ {l : Links}, (∃ x, x ∈ l.neighbours name) →
        l[name]? = some (l.neighbours name) := by
      intro l ⟨x, hx⟩
      cases hget : l[name]? with
      | none => simp [neighbours, hget] at hx
      | some set => simp [neighbours, hget]
    obtain ⟨x, hx⟩ := not_forall_not.1 hnone
    rw [hsome ⟨x, hx⟩, hsome ⟨x, (hmem name x).1 hx⟩, hset]

end Links

/-! ### Both directions and the count -/

namespace MentionIndex

theorem mem_image_pair {a x y : String} {names : List String} :
    (x, y) ∈ names.toFinset.image (a, ·) ↔ x = a ∧ y ∈ names := by
  simp only [Finset.mem_image, List.mem_toFinset, Prod.mk.injEq]
  constructor
  · rintro ⟨b, hb, rfl, rfl⟩
    exact ⟨rfl, hb⟩
  · rintro ⟨rfl, hy⟩
    exact ⟨y, hy, rfl, rfl⟩

/-- The index holds exactly these pairs, mentioner first. -/
structure Represents (index : MentionIndex) (pairs : Finset (String × String)) : Prop where
  forward : ∀ a b, b ∈ index.forward.neighbours a ↔ (a, b) ∈ pairs
  backward : ∀ a b, a ∈ index.backward.neighbours b ↔ (a, b) ∈ pairs
  tightForward : index.forward.Tight
  tightBackward : index.backward.Tight
  size : index.size = pairs.card

namespace Represents

variable {index index' : MentionIndex} {pairs pairs' : Finset (String × String)}
  {a b : String} {names : List String}

theorem empty : Represents {} ∅ where
  forward _ _ := by simp
  backward _ _ := by simp
  tightForward := Links.tight_empty
  tightBackward := Links.tight_empty
  size := rfl

theorem contains_iff (h : index.Represents pairs) : index.contains a b = true ↔ (a, b) ∈ pairs :=
  h.forward a b

theorem mem_mentioned_iff (h : index.Represents pairs) :
    b ∈ index.mentioned a ↔ (a, b) ∈ pairs := by
  rw [← h.forward, mentioned, Std.ExtTreeSet.mem_toList]

theorem mem_mentioners_iff (h : index.Represents pairs) :
    a ∈ index.mentioners b ↔ (a, b) ∈ pairs := by
  rw [← h.backward, mentioners, Std.ExtTreeSet.mem_toList]

/-- An index is determined by its pairs. -/
theorem eq (h : index.Represents pairs) (h' : index'.Represents pairs) : index = index' := by
  have hforward : index.forward = index'.forward :=
    h.tightForward.eq h'.tightForward fun name x => by rw [h.forward, h'.forward]
  have hbackward : index.backward = index'.backward :=
    h.tightBackward.eq h'.tightBackward fun name x => by rw [h.backward, h'.backward]
  have hsize : index.size = index'.size := by rw [h.size, h'.size]
  cases index
  cases index'
  simp_all

theorem add (h : index.Represents pairs) (a b : String) :
    (index.add a b).Represents (insert (a, b) pairs) := by
  unfold MentionIndex.add
  -- where the pair is held already nothing is counted
  by_cases hab : (a, b) ∈ pairs
  · rw [if_pos (h.contains_iff.2 hab), Finset.insert_eq_of_mem hab]
    exact h
  · rw [if_neg (fun hc => hab (h.contains_iff.1 hc))]
    exact {
      forward := fun x y => by
        simp [Links.mem_neighbours_link, h.forward]
      backward := fun x y => by
        simp [Links.mem_neighbours_link, h.backward, and_comm]
      tightForward := h.tightForward.link a b
      tightBackward := h.tightBackward.link b a
      size := by rw [Finset.card_insert_of_notMem hab, ← h.size] }

theorem remove (h : index.Represents pairs) (a b : String) :
    (index.remove a b).Represents (pairs.erase (a, b)) := by
  unfold MentionIndex.remove
  by_cases hab : (a, b) ∈ pairs
  · rw [if_pos (h.contains_iff.2 hab)]
    exact {
      forward := fun x y => by
        simp [Links.mem_neighbours_unlink, h.forward]
      backward := fun x y => by
        simp [Links.mem_neighbours_unlink, h.backward, and_comm]
      tightForward := h.tightForward.unlink a b
      tightBackward := h.tightBackward.unlink b a
      size := by rw [Finset.card_erase_of_mem hab, ← h.size] }
  · rw [if_neg (fun hc => hab (h.contains_iff.1 hc)), Finset.erase_eq_of_notMem hab]
    exact h

theorem foldl_remove (h : index.Represents pairs) (taken : List (String × String)) :
    (taken.foldl (fun i p => i.remove p.1 p.2) index).Represents (pairs \ taken.toFinset) := by
  induction taken generalizing index pairs with
  | nil => simpa using h
  | cons p rest ih =>
    have hstep := ih (h.remove p.1 p.2)
    rw [List.foldl_cons]
    convert hstep using 1
    ext q
    simp only [List.toFinset_cons, Finset.mem_sdiff, Finset.mem_insert, Finset.mem_erase]
    tauto

theorem foldl_add (h : index.Represents pairs) (put : List (String × String)) :
    (put.foldl (fun i p => i.add p.1 p.2) index).Represents (pairs ∪ put.toFinset) := by
  induction put generalizing index pairs with
  | nil => simpa using h
  | cons p rest ih =>
    have hstep := ih (h.add p.1 p.2)
    rw [List.foldl_cons]
    convert hstep using 1
    ext q
    simp only [List.toFinset_cons, Finset.mem_union, Finset.mem_insert]
    tauto

/-- Replacing one side of a name: the pairs with the old neighbours are taken out, which are all
that are not to be kept, and the pairs with the new ones put in. -/
theorem foldl_replace (h : index.Represents pairs) (pair : String → String × String)
    {old : List String} {keep : String × String → Prop} [DecidablePred keep]
    (hold : ∀ p ∈ pairs, (∃ x ∈ old, pair x = p) ↔ ¬ keep p) (names : List String) :
    ((names.map pair).foldl (fun i p => i.add p.1 p.2)
      ((old.map pair).foldl (fun i p => i.remove p.1 p.2) index)).Represents
        (pairs.filter keep ∪ names.toFinset.image pair) := by
  have hreplaced := (h.foldl_remove (old.map pair)).foldl_add (names.map pair)
  -- of the pairs that were there, those with an old neighbour are gone
  have hkept : pairs \ (old.map pair).toFinset = pairs.filter keep := by
    ext p
    rw [Finset.mem_sdiff, Finset.mem_filter, List.mem_toFinset, List.mem_map]
    exact and_congr_right fun hp => by rw [hold p hp, not_not]
  have hput : (names.map pair).toFinset = names.toFinset.image pair := by
    ext p
    simp
  rwa [hkept, hput] at hreplaced

/-- Replacing what a name mentions leaves the pairs of all other names as they were. -/
theorem replaceMentioned (h : index.Represents pairs) (a : String) (names : List String) :
    (index.replaceMentioned a names).Represents
      ((pairs.filter fun p => p.1 ≠ a) ∪ names.toFinset.image (a, ·)) := by
  have hold : ∀ p ∈ pairs, (∃ x ∈ index.mentioned a, (a, x) = p) ↔ ¬ p.1 ≠ a := by
    rintro ⟨x, y⟩ hxy
    rw [not_not]
    constructor
    · rintro ⟨b, -, heq⟩
      exact (congrArg Prod.fst heq).symm
    · rintro rfl
      exact ⟨y, h.mem_mentioned_iff.2 hxy, rfl⟩
  have hreplaced := h.foldl_replace (a, ·) hold names
  rwa [List.foldl_map, List.foldl_map] at hreplaced

/-- Replacing who mentions a name leaves the pairs of all other mentioned names as they were. -/
theorem replaceMentioners (h : index.Represents pairs) (b : String) (names : List String) :
    (index.replaceMentioners b names).Represents
      ((pairs.filter fun p => p.2 ≠ b) ∪ names.toFinset.image (·, b)) := by
  have hold : ∀ p ∈ pairs, (∃ x ∈ index.mentioners b, (x, b) = p) ↔ ¬ p.2 ≠ b := by
    rintro ⟨x, y⟩ hxy
    rw [not_not]
    constructor
    · rintro ⟨a, -, heq⟩
      exact (congrArg Prod.snd heq).symm
    · rintro rfl
      exact ⟨x, h.mem_mentioners_iff.2 hxy, rfl⟩
  have hreplaced := h.foldl_replace (·, b) hold names
  rwa [List.foldl_map, List.foldl_map] at hreplaced

/-- Putting the old mentions of a name back gives the old index back. -/
theorem restore (h : index.Represents pairs) (a : String) (names : List String) :
    (index.replaceMentioned a names).replaceMentioned a (index.mentioned a) = index := by
  have hback := (h.replaceMentioned a names).replaceMentioned a (index.mentioned a)
  -- both indexes hold the pairs that were there at first
  refine hback.eq ?_
  convert h using 1
  ext ⟨x, y⟩
  simp only [Finset.mem_union, Finset.mem_filter, mem_image_pair, h.mem_mentioned_iff]
  by_cases hx : x = a
  · subst hx
    simp
  · simp [hx]

end Represents

end MentionIndex

end FormulaSheet
