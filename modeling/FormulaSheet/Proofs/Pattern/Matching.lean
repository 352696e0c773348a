/-
What a pattern matches.

The search for a match keeps the places that can be reached and cuts a repetition short.  What it
decides can be said without it, by recursion on the pattern: a succession matches over some place
between, an alternative matches as either side does, and a repetition matches over so many steps in
a row.  A step never goes back, so a step that leads anywhere new comes nearer to the end of the
text, and steps that stay where they are can be left out; no repetition needs more of them beyond
its lower bound than the text has characters.

* **`Steps`** — a relation so many times in a row;
* **`Pattern.Matches`** — a pattern matches the part of a text from one place to another;
* **`Steps.shorten`** — steps that stay where they are can be left out;
* **`Pattern.mem_ends_iff`** — the search finds the places where a match can end, and no others.
-/
import FormulaSheet.Pattern.Basic

namespace FormulaSheet

/-- A relation between places so many times in a row. -/
def Steps (r : Nat → Nat → Prop) : Nat → Nat → Nat → Prop
  | 0, i, j => j = i
  | count + 1, i, j => ∃ k, r i k ∧ Steps r count k j

/-! ### Steps -/

section Steps

variable {r : Nat → Nat → Prop} {i j size : Nat}

theorem steps_add_iff {m n : Nat} :
    Steps r (m + n) i j ↔ ∃ k, Steps r m i k ∧ Steps r n k j := by
  induction m generalizing i with
  | zero => simp [Steps]
  | succ m ih =>
    rw [Nat.succ_add]
    constructor
    · rintro ⟨k, hik, hkj⟩
      obtain ⟨l, hkl, hlj⟩ := ih.1 hkj
      exact ⟨l, ⟨k, hik, hkl⟩, hlj⟩
    · rintro ⟨l, ⟨k, hik, hkl⟩, hlj⟩
      exact ⟨k, hik, ih.2 ⟨l, hkl, hlj⟩⟩

/-- A relation goes from a place to the same one, or forward to a place in a text of this size. -/
def GoesForward (r : Nat → Nat → Prop) (size : Nat) : Prop :=
  ∀ i j, r i j → j = i ∨ i < j ∧ j ≤ size

theorem GoesForward.steps (h : GoesForward r size) (count : Nat) :
    GoesForward (Steps r count) size := by
  induction count with
  | zero => exact fun i j hij => .inl hij
  | succ count ih =>
    rintro i j ⟨k, hik, hkj⟩
    have hfirst := h i k hik
    have hrest := ih k j hkj
    omega

/-- Steps that stay where they are can be left out. -/
theorem Steps.shorten (h : GoesForward r size) {count : Nat} (hsteps : Steps r count i j) :
    ∃ m ≤ count, m ≤ j - i ∧ Steps r m i j := by
  induction count generalizing i with
  | zero => exact ⟨0, Nat.le_refl 0, Nat.zero_le _, hsteps⟩
  | succ count ih =>
    obtain ⟨k, hik, hkj⟩ := hsteps
    obtain ⟨m, hm, hspan, hsteps⟩ := ih hkj
    -- the first step stays where it is and is left out, or it comes nearer to the end
    rcases h i k hik with rfl | ⟨hlt, -⟩
    · exact ⟨m, by omega, hspan, hsteps⟩
    · have hrest := h.steps count k j hkj
      exact ⟨m + 1, by omega, by omega, k, hik, hsteps⟩

end Steps

namespace Pattern

/-! ### Matches -/

/-- A pattern matches the part of a text from one place to another. -/
def Matches (text : List Char) : Pattern → Nat → Nat → Prop
  | empty, i, j => j = i
  | one set, i, j => ∃ c, text[i]? = some c ∧ set c = true ∧ j = i + 1
  | start, i, j => i = 0 ∧ j = i
  | finish, i, j => i = text.length ∧ j = i
  | wordEdge negated, i, j => isWordEdge text i = !negated ∧ j = i
  | seq first second, i, j => ∃ k, Matches text first i k ∧ Matches text second k j
  | alt left right, i, j => Matches text left i j ∨ Matches text right i j
  | times p least most, i, j => ∃ count, least ≤ count ∧ (∀ m ∈ most, count ≤ max least m) ∧
      Steps (Matches text p) count i j

/-- A match ends where it starts, or later in the text. -/
theorem goesForward_matches (text : List Char) (p : Pattern) :
    GoesForward (p.Matches text) text.length := by
  induction p with
  | empty => exact fun i j h => .inl h
  | one set =>
    rintro i j ⟨c, hc, -, rfl⟩
    have hi := (List.getElem?_eq_some_iff.1 hc).1
    omega
  | start => exact fun i j h => .inl h.2
  | finish => exact fun i j h => .inl h.2
  | wordEdge negated => exact fun i j h => .inl h.2
  | seq first second hfirst hsecond =>
    rintro i j ⟨k, hik, hkj⟩
    have hto := hfirst i k hik
    have hfrom := hsecond k j hkj
    omega
  | alt left right hleft hright =>
    rintro i j (h | h)
    · exact hleft i j h
    · exact hright i j h
  | times p least most hp =>
    rintro i j ⟨count, -, -, hsteps⟩
    exact hp.steps count i j hsteps

/-! ### The search -/

section Search

variable {step : Nat → List Nat} {r : Nat → Nat → Prop} (hstep : ∀ i j, j ∈ step i ↔ r i j)

include hstep

theorem mem_reachAfter_iff {count : Nat} {places : List Nat} {j : Nat} :
    j ∈ reachAfter step count places ↔ ∃ i ∈ places, Steps r count i j := by
  induction count generalizing places with
  | zero => simp [reachAfter, Steps]
  | succ count ih =>
    rw [reachAfter]
    split
    · next hempty =>
      -- from no place, no place is reached
      rw [List.isEmpty_iff.1 hempty]
      simp
    · simp only [ih, List.mem_eraseDups, List.mem_flatMap, hstep, Steps]
      constructor
      · rintro ⟨k, ⟨i, hi, hik⟩, hkj⟩
        exact ⟨i, hi, k, hik, hkj⟩
      · rintro ⟨i, hi, k, hik, hkj⟩
        exact ⟨k, ⟨i, hi, hik⟩, hkj⟩

theorem mem_reachWithin_iff {bound : Nat} {places : List Nat} {j : Nat} :
    j ∈ reachWithin step bound places ↔ ∃ i ∈ places, ∃ count ≤ bound, Steps r count i j := by
  induction bound generalizing places with
  | zero => simp [reachWithin, Steps]
  | succ bound ih =>
    rw [reachWithin]
    split
    · next hempty =>
      rw [List.isEmpty_iff.1 hempty]
      simp
    · simp only [List.mem_eraseDups, List.mem_append, ih, List.mem_flatMap, hstep]
      constructor
      · rintro (hj | ⟨k, ⟨i, hi, hik⟩, count, hcount, hkj⟩)
        · exact ⟨j, hj, 0, Nat.zero_le _, rfl⟩
        · exact ⟨i, hi, count + 1, Nat.succ_le_succ hcount, k, hik, hkj⟩
      · rintro ⟨i, hi, count, hcount, hsteps⟩
        cases count with
        | zero => exact .inl (hsteps ▸ hi)
        | succ count =>
          obtain ⟨k, hik, hkj⟩ := hsteps
          exact .inr ⟨k, ⟨i, hi, hik⟩, count, Nat.le_of_succ_le_succ hcount, hkj⟩

end Search

/-- The search finds the places where a match can end, and no others. -/
theorem mem_ends_iff {text : List Char} {p : Pattern} {i j : Nat} :
    j ∈ ends text p i ↔ p.Matches text i j := by
  induction p generalizing i j with
  | empty => simp [ends, Matches]
  | one set =>
    rw [ends, Matches]
    cases text[i]? <;> simp
  | start => rw [ends, Matches]; split <;> simp [*]
  | finish => rw [ends, Matches]; split <;> simp [*]
  | wordEdge negated =>
    rw [ends, Matches]
    cases isWordEdge text i <;> cases negated <;> simp
  | seq first second hfirst hsecond =>
    simp only [ends, Matches, List.mem_eraseDups, List.mem_flatMap, hfirst, hsecond]
  | alt left right hleft hright =>
    simp only [ends, Matches, List.mem_eraseDups, List.mem_append, hleft, hright]
  | times p least most hp =>
    rw [ends.eq_def, Matches]
    dsimp only
    rw [mem_reachWithin_iff fun i j => hp]
    simp only [mem_reachAfter_iff fun i j => hp, List.mem_singleton]
    constructor
    · rintro ⟨k, ⟨_, rfl, hik⟩, extra, hextra, hkj⟩
      -- the steps that are needed and those that may follow are steps in a row
      refine ⟨least + extra, Nat.le_add_right _ _, ?_, steps_add_iff.2 ⟨k, hik, hkj⟩⟩
      intro m hm
      rw [Option.mem_def] at hm
      subst hm
      dsimp only at hextra
      omega
    · rintro ⟨count, hleast, hmost, hsteps⟩
      obtain ⟨extra, rfl⟩ := Nat.exists_eq_add_of_le hleast
      obtain ⟨k, hik, hkj⟩ := steps_add_iff.1 hsteps
      -- beyond the lower bound, only steps that lead on are needed
      obtain ⟨m, hm, hspan, hshort⟩ := hkj.shorten (goesForward_matches text p)
      have hend := (goesForward_matches text p).steps m k j hshort
      refine ⟨k, ⟨i, rfl, hik⟩, m, ?_, hshort⟩
      cases most with
      | none =>
        dsimp only
        omega
      | some most =>
        have hbound := hmost most rfl
        dsimp only
        omega

/-- A pattern between the start and the finish is found exactly if it matches the whole text. -/
theorem isFound_anchored_iff {p : Pattern} {text : String} :
    (seq start (seq p (seq finish empty))).isFound text = true ↔
      p.Matches text.toList 0 text.toList.length := by
  unfold isFound
  simp only [List.any_eq_true, List.mem_range, Bool.not_eq_true',
    List.isEmpty_eq_false_iff_exists_mem, mem_ends_iff, Matches]
  constructor
  · -- the start pins one end of the match, and the finish the other
    rintro ⟨i, -, j, k, ⟨rfl, rfl⟩, l, hmatch, m, ⟨rfl, -⟩, -⟩
    exact hmatch
  · intro hmatch
    exact ⟨0, Nat.succ_pos _, _, 0, ⟨rfl, rfl⟩, _, hmatch, _, ⟨rfl, rfl⟩, rfl⟩

end Pattern

end FormulaSheet
