/-
The order of recalculation.

What a change of a name leads to can be computed again in an order in which every cell comes after
all that it mentions, unless a cycle is in the way.  The walk finds that order, or such a cycle, on
every index: not only where mentions never lead back.

* **`Turn`**, **`Ends`** — the turns of the loop of a walk, and where it stops;
* **`affected_turns`** — the loop stops after finitely many turns, with what the walk returns;
* **`affected_afterUpdates`** — on every index, what the walk returns is an order of recalculation
  or a cycle, and it is a cycle exactly if the start leads to one.

In a turn it is asked first whether the next mentioner stands on the path.  The walk asks so only of
names that were met before; that this is the same, and that a cycle is always cut out of the path
where its name stands, is what `Walking` says about names that were met.
-/
import FormulaSheet.Proofs.Mention.Updates
import FormulaSheet.Proofs.Mention.Walk

namespace FormulaSheet.MentionIndex

open Relation

variable {index : MentionIndex} {start : String} {met : NameSet} {left : List String}
  {stack : List Frame}

/-! ### The loop of a walk -/

/-- Where a walk stands: what it has met and left, and the frames of its path. -/
structure Stand where
  met : NameSet
  left : List String
  stack : List Frame

/-- Where a walk starts. -/
def startOf (index : MentionIndex) (start : String) : Stand :=
  ⟨{start}, [], [index.enter start]⟩

/-- One turn of the loop: the innermost name is left, or its next mentioner is passed over, or
entered. -/
inductive Turn (index : MentionIndex) : Stand → Stand → Prop
  | leave {met : NameSet} {left : List String} {name : String} {outer : List Frame} :
      Turn index ⟨met, left, ⟨name, []⟩ :: outer⟩ ⟨met, name :: left, outer⟩
  | skip {met : NameSet} {left pending : List String} {name next : String} {outer : List Frame} :
      next ∉ name :: outer.map Frame.name → next ∈ met →
      Turn index ⟨met, left, ⟨name, next :: pending⟩ :: outer⟩ ⟨met, left, ⟨name, pending⟩ :: outer⟩
  | enter {met : NameSet} {left pending : List String} {name next : String} {outer : List Frame} :
      next ∉ name :: outer.map Frame.name → next ∉ met →
      Turn index ⟨met, left, ⟨name, next :: pending⟩ :: outer⟩
        ⟨met.insert next, left, index.enter next :: ⟨name, pending⟩ :: outer⟩

/-- The loop stops when all frames are done, or at a name that stands on the path. -/
inductive Ends : Stand → Except Cycle (List String) → Prop
  | done {met : NameSet} {left : List String} : Ends ⟨met, left, []⟩ (.ok left)
  | closed {met : NameSet} {left pending : List String} {name next : String} {outer : List Frame} :
      next ∈ name :: outer.map Frame.name →
      Ends ⟨met, left, ⟨name, next :: pending⟩ :: outer⟩
        (.error (closeCycle next (name :: outer.map Frame.name)))

/-- The loop stops where the walk does. -/
theorem Walking.turns (h : index.Pending stack) (hw : index.Walking start met left stack) :
    ∃ last, ReflTransGen index.Turn ⟨met, left, stack⟩ last ∧
      Ends last (index.walk met left stack h) := by
  induction met, left, stack, h using walk.induct with
  | case1 met left h _ =>
    rw [walk]
    exact ⟨_, .refl, .done⟩
  | case2 met left name outer h _ ih =>
    rw [walk]
    obtain ⟨last, hturns, hends⟩ := ih hw.leave
    exact ⟨last, hturns.head .leave, hends⟩
  | case3 met left name next pending outer h hrest hmet hpath _ =>
    rw [walk, if_pos hmet, if_pos hpath]
    exact ⟨_, .refl, .closed (standsOn_iff.1 hpath)⟩
  | case4 met left name next pending outer h hrest hmet hpath _ ih =>
    rw [walk, if_pos hmet, if_neg hpath]
    have hnot : next ∉ name :: outer.map Frame.name := fun hmem => hpath (standsOn_iff.2 hmem)
    have hleft : next ∈ left := ((hw.met_iff next).1 hmet).resolve_right hnot
    obtain ⟨last, hturns, hends⟩ := ih (hw.skip hleft)
    exact ⟨last, hturns.head (.skip hnot hmet), hends⟩
  | case5 met left name next pending outer h hrest hmet _ ih =>
    rw [walk, if_neg hmet]
    -- what stands on the path was met when it was entered
    have hnot : next ∉ name :: outer.map Frame.name := fun hmem =>
      hmet ((hw.met_iff next).2 (.inr hmem))
    obtain ⟨last, hturns, hends⟩ := ih (hw.enter hmet)
    exact ⟨last, hturns.head (.enter hnot hmet), hends⟩

theorem affected_turns (index : MentionIndex) (start : String) :
    ∃ last, ReflTransGen index.Turn (index.startOf start) last ∧ Ends last (index.affected start) :=
  (index.walking_start start).turns _

/-! ### What the walk returns -/

/-- The walk returns a cycle exactly if the start leads to a name that leads to itself. -/
theorem affected_isError_iff : (∃ cycle, index.affected start = .error cycle) ↔
    ∃ x, ReflTransGen index.LeadsTo start x ∧ TransGen index.LeadsTo x x := by
  have hok : (∃ order, index.affected start = .ok order) ↔
      ∀ x, ReflTransGen index.LeadsTo start x → ¬ TransGen index.LeadsTo x x :=
    affected_isOk_iff
  constructor
  · rintro ⟨cycle, hcycle⟩
    by_contra hno
    push Not at hno
    -- else the walk would have returned a list, and it returns one thing only
    obtain ⟨order, horder⟩ := hok.2 hno
    rw [hcycle] at horder
    cases horder
  · rintro ⟨x, hx, hloop⟩
    cases h : index.affected start with
    | error cycle => exact ⟨cycle, rfl⟩
    | ok order => exact absurd hloop (hok.1 ⟨order, h⟩ x hx)

/-- After the start, the walk lists what the start leads to in at least one step. -/
theorem exists_affected_eq_cons {order : List String} (h : index.affected start = .ok order) :
    ∃ rest, order = start :: rest ∧ ∀ x, x ∈ rest ↔ TransGen index.LeadsTo start x := by
  obtain ⟨hordered, hhead, hmem⟩ := affected_ok h
  cases order with
  | nil => cases hhead
  | cons first rest =>
    obtain rfl := Option.some.inj hhead
    refine ⟨rest, rfl, fun x => ⟨fun hx => ?_, fun hx => ?_⟩⟩
    · -- the start does not come a second time
      have hne : x ≠ first := ne_of_mem_of_not_mem hx hordered.1
      exact (reflTransGen_iff_eq_or_transGen.1 ((hmem x).1 (.tail _ hx))).resolve_left hne
    · obtain ⟨y, hy, hyx⟩ := TransGen.head'_iff.1 hx
      exact hordered.2.2.mem_of_reaches (hordered.2.1 y hy) hyx

theorem IsCycle.ends {path : List String} (h : index.IsCycle path) :
    2 ≤ path.length ∧ path.head? = path.getLast? ∧ path.dropLast.Nodup := by
  obtain ⟨name, between, rfl, hnodup, -⟩ := h
  have hpath : name :: (between ++ [name]) = (name :: between) ++ [name] := rfl
  refine ⟨by simp, ?_, ?_⟩
  · rw [hpath, List.getLast?_concat]
    rfl
  · rw [hpath, List.dropLast_concat]
    exact hnodup

/-- On every index, whatever updates have made it, the walk from a name comes to an end.  It returns
a cycle exactly if the name leads to one by mentions followed backwards, in no or more steps.
Otherwise it lists the name and then all cells that mention it, directly or through others, each
once and after all listed names that it mentions.  A cycle that it returns starts where it ends,
passes through no other name twice, and each of its names mentions the next. -/
theorem affected_afterUpdates (updates : List MentionUpdate) (start : String) :
    let index := afterUpdates updates
    let changes : String → String → Prop := fun x y => index.contains y x = true
    (∃ last, ReflTransGen index.Turn (index.startOf start) last ∧
      Ends last (index.affected start)) ∧
    ((∃ cycle, index.affected start = .error cycle) ↔
      ∃ x, ReflTransGen changes start x ∧ TransGen changes x x) ∧
    (∀ order, index.affected start = .ok order →
      (∃ rest, order = start :: rest ∧ ∀ x, x ∈ rest ↔ TransGen changes start x) ∧
      order.Nodup ∧
      ∀ a ∈ order, ∀ b ∈ order, index.contains a b = true → order.idxOf b < order.idxOf a) ∧
    ∀ cycle, index.affected start = .error cycle →
      2 ≤ cycle.path.length ∧ cycle.path.head? = cycle.path.getLast? ∧
      cycle.path.dropLast.Nodup ∧
      ∀ (i : Nat) (hi : i + 1 < cycle.path.length),
        index.contains cycle.path[i] cycle.path[i + 1] = true := by
  intro index changes
  have hpairs : index.Represents (pairsAfter updates) := .afterUpdates updates
  have hleads : ∀ x y, index.LeadsTo x y ↔ index.contains y x = true := fun x y =>
    hpairs.mem_mentioners_iff.trans hpairs.contains_iff.symm
  have hchanges : index.LeadsTo = changes := funext₂ fun x y => propext (hleads x y)
  refine ⟨affected_turns index start, ?_, fun order horder => ⟨?_, ?_, ?_⟩, fun cycle hcycle => ?_⟩
  · rw [← hchanges]
    exact affected_isError_iff
  · rw [← hchanges]
    exact exists_affected_eq_cons horder
  · exact (affected_ok horder).1.nodup
  · intro a _ b hb hab
    exact (affected_ok horder).1.idxOf_lt hb ((hleads b a).2 hab)
  · obtain ⟨hiscycle, -⟩ := affected_error hcycle
    obtain ⟨hlength, hends, hnodup⟩ := hiscycle.ends
    refine ⟨hlength, hends, hnodup, fun i hi => ?_⟩
    obtain ⟨-, -, -, -, hchain⟩ := hiscycle
    exact (hleads _ _).1 (List.isChain_iff_getElem.1 hchain i hi)

end FormulaSheet.MentionIndex
