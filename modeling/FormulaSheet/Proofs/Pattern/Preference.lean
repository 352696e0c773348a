/-
The order of matches.

Where a pattern matches in several ways, a search that takes a match settles for the first: it tries
the left alternative before the right one, and goes on with a repetition rather than stop.  What
comes first need not be what reaches farthest, and where what follows does not match, the search
goes back to what comes next.  But a character that is repeated is taken as often as it stands there
if nothing that follows starts with it, for then every shorter repetition fails.

* **`Pattern.choices`** — the places where a match can end, in the order of preference;
* **`Pattern.mem_choices_iff`** — they are the places that the pattern matches up to;
* **`Pattern.choices_seq_run`**, **`Pattern.choices_seq_optional`** — where nothing goes back.
-/
import FormulaSheet.Proofs.Pattern.Matching
import FormulaSheet.Proofs.Text.Cut

namespace FormulaSheet.Pattern

/-! ### The order of preference -/

/-- The places reached from a place by `count` steps, those by a preferred step first. -/
def choicesAfter (step : Nat → List Nat) : Nat → Nat → List Nat
  | 0, place => [place]
  | count + 1, place => (step place).flatMap (choicesAfter step count)

/-- The places reached from a place by at most `count` steps: to go on is preferred to stopping. -/
def choicesWithin (step : Nat → List Nat) : Nat → Nat → List Nat
  | 0, place => [place]
  | count + 1, place => (step place).flatMap (choicesWithin step count) ++ [place]

/-- The places where a match that starts at a place can end, in the order in which a search takes
them: a left alternative before the right one, a longer repetition before a shorter one. -/
def choices (text : List Char) : Pattern → Nat → List Nat
  | empty, place => [place]
  | one set, place => if text[place]?.any set then [place + 1] else []
  | start, place => if place = 0 then [place] else []
  | finish, place => if place = text.length then [place] else []
  | wordEdge negated, place => if isWordEdge text place != negated then [place] else []
  | seq first second, place => (choices text first place).flatMap (choices text second)
  | alt left right, place => choices text left place ++ choices text right place
  | times p least most, place =>
    let extra := match most with
      | some most => min (most - least) text.length
      | none => text.length
    (choicesAfter (choices text p) least place).flatMap (choicesWithin (choices text p) extra)

variable {step : Nat → List Nat}

section Steps

variable {r : Nat → Nat → Prop} (hstep : ∀ i j, j ∈ step i ↔ r i j)

include hstep

theorem mem_choicesAfter_iff {count i j : Nat} :
    j ∈ choicesAfter step count i ↔ Steps r count i j := by
  induction count generalizing i with
  | zero => exact List.mem_singleton
  | succ count ih => simp only [choicesAfter, Steps, List.mem_flatMap, hstep, ih]

theorem mem_choicesWithin_iff {bound i j : Nat} :
    j ∈ choicesWithin step bound i ↔ ∃ count ≤ bound, Steps r count i j := by
  induction bound generalizing i with
  | zero => simp [choicesWithin, Steps]
  | succ bound ih =>
    simp only [choicesWithin, List.mem_append, List.mem_flatMap, List.mem_singleton, hstep, ih]
    constructor
    · rintro (⟨k, hik, count, hcount, hkj⟩ | rfl)
      · exact ⟨count + 1, Nat.succ_le_succ hcount, k, hik, hkj⟩
      · exact ⟨0, Nat.zero_le _, rfl⟩
    · rintro ⟨count, hcount, hsteps⟩
      cases count with
      | zero => exact .inr hsteps
      | succ count =>
        obtain ⟨k, hik, hkj⟩ := hsteps
        exact .inl ⟨k, hik, count, Nat.le_of_succ_le_succ hcount, hkj⟩

end Steps

/-- The order in which places are reached makes no difference to which they are. -/
theorem mem_flatMap_choicesWithin_iff {step' : Nat → List Nat}
    (hstep : ∀ i j, j ∈ step i ↔ j ∈ step' i) {least extra i j : Nat} :
    j ∈ (choicesAfter step least i).flatMap (choicesWithin step extra) ↔
      j ∈ reachWithin step' extra (reachAfter step' least [i]) := by
  rw [mem_reachWithin_iff fun i j => Iff.rfl]
  simp only [List.mem_flatMap, mem_choicesAfter_iff hstep, mem_choicesWithin_iff hstep,
    mem_reachAfter_iff fun i j => Iff.rfl, List.mem_singleton, exists_eq_left]

/-- The order of preference leaves out no place where a match can end, and adds none. -/
theorem mem_choices_iff {text : List Char} {p : Pattern} {i j : Nat} :
    j ∈ choices text p i ↔ p.Matches text i j := by
  -- the search goes through the pattern in the same way, but keeps each place once
  rw [← mem_ends_iff]
  induction p generalizing i j with
  | empty => rfl
  | one set => rfl
  | start => rfl
  | finish => rfl
  | wordEdge negated => rfl
  | seq first second hfirst hsecond =>
    simp only [choices, ends, List.mem_eraseDups, List.mem_flatMap, hfirst, hsecond]
  | alt left right hleft hright =>
    simp only [choices, ends, List.mem_eraseDups, List.mem_append, hleft, hright]
  | times p least most hp =>
    rw [choices.eq_def, ends.eq_def]
    exact mem_flatMap_choicesWithin_iff fun i j => hp

/-! ### Runs of characters -/

section Runs

open Text (Stops)

variable {text run rest : List Char} {set : Char → Bool} {i : Nat}

theorem choices_one {c : Char} (h : text.drop i = c :: rest) :
    choices text (one set) i = if set c then [i + 1] else [] := by
  rw [choices, ← List.head?_drop, h, List.head?_cons, Option.any_some]

theorem drop_succ_of_drop_eq {c : Char} (h : text.drop i = c :: rest) :
    text.drop (i + 1) = rest := by
  rw [← List.drop_drop, h]
  rfl

theorem choices_one_of_stops (h : Stops set (text.drop i)) : choices text (one set) i = [] := by
  rw [choices, ← List.head?_drop]
  cases hhead : (text.drop i).head? with
  | none => rfl
  | some c => simp [h c hhead]

/-- A run of characters is left at its end first, and then before one of its characters. -/
theorem exists_choicesWithin_one {count : Nat} (hrun : ∀ c ∈ run, set c = true)
    (hrest : Stops set rest) (hcount : run.length ≤ count) (htext : text.drop i = run ++ rest) :
    ∃ others, choicesWithin (choices text (one set)) count i = (i + run.length) :: others ∧
      ∀ k ∈ others, ∃ c, text[k]? = some c ∧ set c = true := by
  induction run generalizing i count with
  | nil =>
    cases count with
    | zero => exact ⟨[], rfl, List.forall_mem_nil _⟩
    | succ count =>
      rw [List.nil_append] at htext
      rw [choicesWithin, choices_one_of_stops (htext ▸ hrest)]
      exact ⟨[], rfl, List.forall_mem_nil _⟩
  | cons c run ih =>
    obtain ⟨count, rfl⟩ := Nat.exists_eq_add_of_le' (Nat.le_trans (Nat.succ_pos _) hcount)
    have hnext : text.drop (i + 1) = run ++ rest := drop_succ_of_drop_eq htext
    have hhere : text[i]? = some c := by
      rw [← List.head?_drop, htext]
      rfl
    obtain ⟨hc, hrun⟩ := List.forall_mem_cons.1 hrun
    -- this place comes last, for to go on is preferred
    obtain ⟨others, hothers, hinside⟩ := ih hrun (Nat.le_of_succ_le_succ hcount) hnext
    refine ⟨others ++ [i], ?_, List.forall_mem_append.2 ⟨hinside, ?_⟩⟩
    · rw [choicesWithin, choices_one htext, if_pos hc, List.flatMap_singleton, hothers,
        List.length_cons, Nat.add_right_comm, Nat.add_assoc]
      rfl
    · rintro k hk
      obtain rfl := List.mem_singleton.1 hk
      exact ⟨c, hhere, hc⟩

/-- A run of characters is counted from its start. -/
theorem choicesAfter_one {least : Nat} (hrun : ∀ c ∈ run, set c = true) (hrest : Stops set rest)
    (htext : text.drop i = run ++ rest) : choicesAfter (choices text (one set)) least i =
      if least ≤ run.length then [i + least] else [] := by
  induction least generalizing i run with
  | zero => rfl
  | succ least ih =>
    cases run with
    | nil =>
      rw [List.nil_append] at htext
      rw [choicesAfter, choices_one_of_stops (htext ▸ hrest)]
      rfl
    | cons c run =>
      obtain ⟨hc, hrun⟩ := List.forall_mem_cons.1 hrun
      rw [choicesAfter, choices_one htext, if_pos hc, List.flatMap_singleton,
        ih hrun (drop_succ_of_drop_eq htext), Nat.add_right_comm, Nat.add_assoc]
      simp only [List.length_cons, Nat.succ_le_succ_iff]

theorem exists_choices_run {least : Nat} (hrun : ∀ c ∈ run, set c = true) (hrest : Stops set rest)
    (htext : text.drop i = run ++ rest) (hleast : least ≤ run.length) :
    ∃ others, (times (one set) least none).choices text i = (i + run.length) :: others ∧
      ∀ k ∈ others, ∃ c, text[k]? = some c ∧ set c = true := by
  have hsize := congrArg List.length htext
  rw [List.length_drop, List.length_append] at hsize
  have hlater : text.drop (i + least) = run.drop least ++ rest := by
    rw [← List.drop_drop, htext, List.drop_append_of_le_length hleast]
  -- the bound is that of the text, which the run does not go beyond
  have hcount : (run.drop least).length ≤ text.length := by
    rw [List.length_drop]
    omega
  obtain ⟨others, hothers, hinside⟩ := exists_choicesWithin_one
    (fun c hc => hrun c (List.mem_of_mem_drop hc)) hrest hcount hlater
  refine ⟨others, ?_, hinside⟩
  rw [choices, choicesAfter_one hrun hrest htext, if_pos hleast, List.flatMap_singleton, hothers,
    List.length_drop, Nat.add_assoc, Nat.add_sub_cancel' hleast]

theorem choices_run_of_lt {least : Nat} (hrun : ∀ c ∈ run, set c = true) (hrest : Stops set rest)
    (htext : text.drop i = run ++ rest) (hleast : run.length < least) :
    (times (one set) least none).choices text i = [] := by
  rw [choices, choicesAfter_one hrun hrest htext, if_neg (Nat.not_le.2 hleast)]
  rfl

end Runs

/-! ### What is left -/

/-- Behind its first match, a pattern leaves of a text what is given by a function of the text. -/
def Leaves (p : Pattern) (left : List Char → Option (List Char)) : Prop :=
  ∀ text i, (p.choices text i).head?.map (text.drop ·) = left (text.drop i)

/-- What is left behind one character of a set. -/
def afterOne (set : Char → Bool) (left : List Char → Option (List Char)) :
    List Char → Option (List Char)
  | [] => none
  | c :: rest => if set c then left rest else none

/-- What is left behind one character of a set, if there is one. -/
def afterOptional (set : Char → Bool) (left : List Char → Option (List Char)) :
    List Char → Option (List Char)
  | [] => left []
  | c :: rest => if set c then left rest else left (c :: rest)

/-- What is left behind all characters of a set, of which there must be so many. -/
def afterRun (set : Char → Bool) (least : Nat) (left : List Char → Option (List Char))
    (text : List Char) : Option (List Char) :=
  if least ≤ (text.takeWhile set).length then left (text.dropWhile set) else none

section Leaves

open Text (Stops)

variable {p q : Pattern} {set : Char → Bool} {f g : List Char → Option (List Char)}

theorem Leaves.choices_eq_nil_iff (hp : p.Leaves f) {text : List Char} {i : Nat} :
    p.choices text i = [] ↔ f (text.drop i) = none := by
  rw [← hp text i, Option.map_eq_none_iff, List.head?_eq_none_iff]

theorem Leaves.alt (hp : p.Leaves f) (hq : q.Leaves g) :
    (Pattern.alt p q).Leaves fun rest => (f rest).or (g rest) := by
  intro text i
  rw [choices, List.head?_append, Option.map_or, hp, hq]

theorem Leaves.seq (hp : p.Leaves f) (hq : q.Leaves g) (h : ∀ rest, (g rest).isSome = true) :
    (Pattern.seq p q).Leaves fun rest => (f rest).bind g := by
  intro text i
  have hfirst := hp text i
  rw [choices]
  dsimp only
  cases hchoices : p.choices text i with
  | nil =>
    rw [hchoices] at hfirst
    rw [← hfirst]
    rfl
  | cons k others =>
    rw [hchoices, List.head?_cons, Option.map_some] at hfirst
    -- the second part does not fail behind the first match, so no other is tried
    rw [← hfirst, List.flatMap_cons, List.head?_append, Option.map_or, hq,
      Option.or_of_isSome (h _)]
    rfl

theorem afterOne_of_stops {text : List Char} (h : Stops set text) : afterOne set f text = none := by
  cases text with
  | nil => rfl
  | cons c rest => rw [afterOne, if_neg (by simp [h c rfl])]

theorem afterRun_one (set : Char → Bool) (text : List Char) : afterRun set 1 some text =
    if (text.takeWhile set).isEmpty then none else some (text.dropWhile set) := by
  rw [afterRun]
  cases text.takeWhile set <;> rfl

theorem afterRun_of_stops {text : List Char} (h : Stops set text) :
    afterRun set 1 f text = none := by
  rw [afterRun, h.takeWhile]
  rfl

theorem leaves_empty : empty.Leaves some :=
  fun _ _ => rfl

theorem Leaves.of_seq_empty (h : (Pattern.seq p empty).Leaves f) : p.Leaves f := by
  intro text i
  have hchoices := h text i
  rwa [choices, show choices text empty = fun k => [k] from rfl,
    List.flatMap_singleton'] at hchoices

theorem Leaves.seq_one (hq : q.Leaves g) : (Pattern.seq (one set) q).Leaves (afterOne set g) := by
  intro text i
  rw [choices]
  cases htext : text.drop i with
  | nil =>
    rw [choices_one_of_stops (htext ▸ Text.stops_nil set)]
    rfl
  | cons c rest =>
    rw [choices_one htext, afterOne]
    split
    · rw [List.flatMap_singleton, hq, drop_succ_of_drop_eq htext]
    · rfl

/-- A run of characters is taken whole, unless what follows it does not match there, but would
before one of these characters. -/
theorem Leaves.seq_run {least : Nat} (hq : q.Leaves g)
    (h : ∀ rest c tail, g rest = none → set c = true → g (c :: tail) = none) :
    (Pattern.seq (times (one set) least none) q).Leaves (afterRun set least g) := by
  intro text i
  have hrun : ∀ c ∈ (text.drop i).takeWhile set, set c = true :=
    fun c hc => List.mem_takeWhile_imp hc
  have hrest := Text.stops_dropWhile set (text.drop i)
  have htext := (List.takeWhile_append_dropWhile (p := set) (l := text.drop i)).symm
  rw [choices, afterRun]
  split
  · next hleast =>
    obtain ⟨others, hothers, hinside⟩ := exists_choices_run hrun hrest htext hleast
    have hend : text.drop (i + ((text.drop i).takeWhile set).length) =
        (text.drop i).dropWhile set := by
      rw [← List.drop_drop]
      nth_rewrite 2 [htext]
      exact List.drop_left
    rw [hothers, List.flatMap_cons, List.head?_append, Option.map_or, hq, hend]
    cases hleft : g ((text.drop i).dropWhile set) with
    | some left => rfl
    | none =>
      -- each shorter repetition leaves a character of the set, and the search fails there
      have hnone : others.flatMap (choices text q) = [] := by
        refine List.flatMap_eq_nil_iff.2 fun k hk => hq.choices_eq_nil_iff.2 ?_
        obtain ⟨c, hc, hset⟩ := hinside k hk
        obtain ⟨tail, htail⟩ := List.head?_eq_some_iff.1 (List.head?_drop.trans hc)
        rw [htail]
        exact h _ c tail hleft hset
      rw [hnone]
      rfl
  · next hleast =>
    rw [choices_run_of_lt hrun hrest htext (Nat.not_le.1 hleast)]
    rfl

/-- A run that ends a pattern is taken whole. -/
theorem leaves_run (set : Char → Bool) (least : Nat) :
    (times (one set) least none).Leaves (afterRun set least some) :=
  (leaves_empty.seq_run fun _ _ _ h _ => nomatch h).of_seq_empty

theorem leaves_one (set : Char → Bool) : (one set).Leaves (afterOne set some) :=
  leaves_empty.seq_one.of_seq_empty

theorem Leaves.congr (hp : p.Leaves f) (h : ∀ rest, f rest = g rest) : p.Leaves g :=
  fun text i => (hp text i).trans (h _)

theorem choices_optional {text : List Char} (htext : text ≠ []) (i : Nat) :
    (times p 0 (some 1)).choices text i = p.choices text i ++ [i] := by
  -- in an empty text there would be no step at all
  have hone : min (1 - 0) text.length = 1 := Nat.min_eq_left (List.length_pos_iff.2 htext)
  rw [choices, choicesAfter, List.flatMap_singleton, hone]
  show (p.choices text i).flatMap (fun k => [k]) ++ [i] = _
  rw [List.flatMap_singleton']

theorem Leaves.optional (hp : p.Leaves f) (h : f [] = none) :
    (times p 0 (some 1)).Leaves fun rest => (f rest).or (some rest) := by
  intro text i
  cases text with
  | nil =>
    show some (([] : List Char).drop i) = (f (([] : List Char).drop i)).or _
    rw [List.drop_nil, h]
    rfl
  | cons c tail =>
    rw [choices_optional (List.cons_ne_nil c tail), List.head?_append, Option.map_or, hp]
    rfl

/-- A character that may be there is taken, unless what follows matches before it as well. -/
theorem Leaves.seq_optional (hq : q.Leaves g)
    (h : ∀ c rest, set c = true → g (c :: rest) = none) :
    (Pattern.seq (times (one set) 0 (some 1)) q).Leaves (afterOptional set g) := by
  intro text i
  have hskip : Stops set (text.drop i) →
      (Pattern.seq (times (one set) 0 (some 1)) q).choices text i = q.choices text i := by
    intro hstops
    rcases eq_or_ne text [] with rfl | htext
    · exact List.flatMap_singleton _ _
    · rw [choices, choices_optional htext, choices_one_of_stops hstops]
      exact List.flatMap_singleton _ _
  cases htext : text.drop i with
  | nil => rw [hskip (htext ▸ Text.stops_nil set), hq, htext, afterOptional]
  | cons c rest =>
    rw [afterOptional]
    split
    · next hc =>
      have hne : text ≠ [] := by
        rintro rfl
        simp at htext
      -- without the character the search would fail before it
      have hback : q.choices text i = [] := hq.choices_eq_nil_iff.2 (htext ▸ h c rest hc)
      rw [choices, choices_optional hne, choices_one htext, if_pos hc, List.flatMap_append,
        List.flatMap_singleton, List.flatMap_singleton, hback, List.append_nil, hq,
        drop_succ_of_drop_eq htext]
    · next hc =>
      rw [hskip (htext ▸ Text.stops_cons (Bool.eq_false_iff.2 hc)), hq, htext]

end Leaves

end FormulaSheet.Pattern
