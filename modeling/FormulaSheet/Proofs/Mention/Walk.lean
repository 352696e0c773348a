/-
What the walk over mentioners finds.

A change of a name leads to its mentioners, and from them to theirs.  The walk from a name either
lists everything that a change of it leads to, or returns a cycle:

* **`IsOrdered`** — a list in which no name repeats and all mentioners of a name come later;
* **`affected_ok`** — a list that the walk returns is ordered, starts with the start and holds
  exactly what the start leads to; so nothing in it leads to itself;
* **`affected_error`** — a path that the walk returns is a cycle that the start leads to, and it
  is closed at the start if it passes through it;
* **`affected_congr`** — what the walk returns depends on the mentioners of the names that the start
  leads to, and on no others.

The invariant of the walk is `OnPath`: what is still pending in the frames, what has been left and
the frame above are together all mentioners of every name on the path.
-/
import FormulaSheet.Mention.Affected
import Mathlib.Data.List.Chain
import Mathlib.Data.List.TakeWhile
import Mathlib.Logic.Relation

namespace FormulaSheet.MentionIndex

open Relation

variable {index : MentionIndex}

/-- A change of `x` changes what the formula in `y` finds. -/
def LeadsTo (index : MentionIndex) (x y : String) : Prop :=
  y ∈ index.mentioners x

/-! ### Ordered lists -/

/-- No name repeats, and all mentioners of a name come after it. -/
def IsOrdered (index : MentionIndex) : List String → Prop
  | [] => True
  | name :: rest => name ∉ rest ∧ (∀ y ∈ index.mentioners name, y ∈ rest) ∧ index.IsOrdered rest

theorem IsOrdered.mem_of_leadsTo {order : List String} (h : index.IsOrdered order) {x y : String}
    (hx : x ∈ order) (hxy : index.LeadsTo x y) : y ∈ order := by
  induction order with
  | nil => simp at hx
  | cons name rest ih =>
    obtain ⟨-, hmentioners, hrest⟩ := h
    rcases List.mem_cons.1 hx with rfl | hx
    · exact .tail _ (hmentioners y hxy)
    · exact .tail _ (ih hrest hx)

theorem IsOrdered.mem_of_reaches {order : List String} (h : index.IsOrdered order) {x y : String}
    (hx : x ∈ order) (hxy : ReflTransGen index.LeadsTo x y) : y ∈ order := by
  induction hxy with
  | refl => exact hx
  | tail _ hstep ih => exact h.mem_of_leadsTo ih hstep

theorem IsOrdered.not_transGen_self {order : List String} (h : index.IsOrdered order) {x : String}
    (hx : x ∈ order) : ¬ TransGen index.LeadsTo x x := by
  induction order with
  | nil => simp at hx
  | cons name rest ih =>
    obtain ⟨hname, hmentioners, hrest⟩ := h
    rcases List.mem_cons.1 hx with rfl | hx
    · intro hloop
      -- the first step goes into the rest, from where nothing leads back
      obtain ⟨y, hxy, hyx⟩ := TransGen.head'_iff.1 hloop
      exact hname (hrest.mem_of_reaches (hmentioners y hxy) hyx)
    · exact ih hrest hx

theorem IsOrdered.nodup {order : List String} (h : index.IsOrdered order) : order.Nodup := by
  induction order with
  | nil => exact List.nodup_nil
  | cons name rest ih => exact List.nodup_cons.2 ⟨h.1, ih h.2.2⟩

theorem IsOrdered.idxOf_lt {order : List String} (h : index.IsOrdered order) {x y : String}
    (hx : x ∈ order) (hxy : index.LeadsTo x y) : order.idxOf x < order.idxOf y := by
  induction order with
  | nil => simp at hx
  | cons name rest ih =>
    obtain ⟨hname, hmentioners, hrest⟩ := h
    rcases List.mem_cons.1 hx with rfl | hx
    · have hy : x ≠ y := by
        rintro rfl
        exact hname (hmentioners x hxy)
      rw [List.idxOf_cons_self, List.idxOf_cons_ne _ hy]
      omega
    · have hy : y ∈ rest := hrest.mem_of_leadsTo hx hxy
      rw [List.idxOf_cons_ne _ (ne_of_mem_of_not_mem hx hname).symm,
        List.idxOf_cons_ne _ (ne_of_mem_of_not_mem hy hname).symm]
      exact Nat.succ_lt_succ (ih hrest hx)

/-! ### Cycles -/

/-- Names each of which mentions the next, from a name back to itself, no other name twice. -/
def IsCycle (index : MentionIndex) (path : List String) : Prop :=
  ∃ name between, path = name :: (between ++ [name]) ∧ (name :: between).Nodup ∧
    List.IsChain (fun a b => a ∈ index.mentioners b) path

/-- A path of mentions leads from its last name to its first. -/
theorem transGen_of_isChain {a b : String} {between : List String}
    (h : List.IsChain (fun a b => a ∈ index.mentioners b) (a :: (between ++ [b]))) :
    TransGen index.LeadsTo b a := by
  induction between generalizing a with
  | nil =>
    obtain ⟨hab, -⟩ := List.isChain_cons_cons.1 h
    exact .single hab
  | cons c rest ih =>
    obtain ⟨hac, hrest⟩ := List.isChain_cons_cons.1 h
    exact .tail (ih hrest) hac

theorem IsCycle.exists_transGen_self {path : List String} (h : index.IsCycle path) :
    ∃ name ∈ path, TransGen index.LeadsTo name name := by
  obtain ⟨name, between, rfl, -, hchain⟩ := h
  exact ⟨name, .head _, transGen_of_isChain hchain⟩

/-- A cycle stays one under other mentions, if the names on it mention what they mentioned. -/
theorem IsCycle.of_mentioners {index' : MentionIndex} {path : List String}
    (h : index.IsCycle path)
    (hkeep : ∀ a ∈ path, ∀ b, a ∈ index.mentioners b → a ∈ index'.mentioners b) :
    index'.IsCycle path := by
  obtain ⟨name, between, hpath, hnodup, hchain⟩ := h
  refine ⟨name, between, hpath, hnodup, ?_⟩
  exact hchain.imp_of_mem_imp fun a b ha _ hab => hkeep a ha b hab

/-! ### The invariant of the walk -/

/-- The frames of a walk from `start`, innermost first, below the name `inner`, if any: all
mentioners of each name are pending, have been left, or are the name one frame further in. -/
def OnPath (index : MentionIndex) (start : String) (left : List String) :
    Option String → List Frame → Prop
  | none, [] => left.head? = some start
  | some name, [] => name = start
  | inner, frame :: outer =>
    (∀ y ∈ index.mentioners frame.name, y ∈ frame.pending ∨ y ∈ left ∨ inner = some y) ∧
      (∀ y ∈ frame.pending, y ∈ index.mentioners frame.name) ∧
      (∀ y, inner = some y → y ∈ index.mentioners frame.name) ∧
      index.OnPath start left (some frame.name) outer

/-- Leaving the innermost name puts it in front of what has been left. -/
theorem OnPath.leave {start name : String} {left : List String} {outer : List Frame}
    (h : index.OnPath start left (some name) outer) :
    index.OnPath start (name :: left) none outer := by
  cases outer with
  | nil =>
    rw [OnPath] at h
    rw [h]
    rfl
  | cons frame outer =>
    obtain ⟨hcover, hpending, -, houter⟩ := h
    refine ⟨fun y hy => ?_, hpending, by simp, ?_⟩
    · rcases hcover y hy with hy | hy | hy
      · exact .inl hy
      · exact .inr (.inl (.tail _ hy))
      · obtain rfl := Option.some.inj hy
        exact .inr (.inl (.head _))
    · -- further out only what has been left has grown
      clear hcover hpending
      generalize frame.name = inner at houter
      induction outer generalizing inner with
      | nil => exact houter
      | cons frame' outer ih =>
        obtain ⟨hcover', hpending', hinner', houter'⟩ := houter
        refine ⟨fun y hy => ?_, hpending', hinner', ih _ houter'⟩
        rcases hcover' y hy with hy | hy | hy
        · exact .inl hy
        · exact .inr (.inl (.tail _ hy))
        · exact .inr (.inr hy)

/-- Each name on the path mentions the one before it. -/
theorem OnPath.isChain {start : String} {left : List String} {inner : String}
    {stack : List Frame} (h : index.OnPath start left (some inner) stack) :
    List.IsChain (fun a b => a ∈ index.mentioners b) (inner :: stack.map Frame.name) := by
  induction stack generalizing inner with
  | nil => exact .singleton _
  | cons frame outer ih =>
    obtain ⟨-, -, hinner, houter⟩ := h
    exact List.isChain_cons_cons.2 ⟨hinner inner rfl, ih houter⟩

theorem OnPath.reaches {start : String} {left : List String} {inner : String}
    {stack : List Frame} (h : index.OnPath start left (some inner) stack) :
    ReflTransGen index.LeadsTo start inner := by
  induction stack generalizing inner with
  | nil =>
    rw [OnPath] at h
    rw [h]
  | cons frame outer ih =>
    obtain ⟨-, -, hinner, houter⟩ := h
    exact (ih houter).tail (hinner inner rfl)

theorem OnPath.getLast?_eq {start : String} {left : List String} {inner : String}
    {stack : List Frame} (h : index.OnPath start left (some inner) stack) :
    (inner :: stack.map Frame.name).getLast? = some start := by
  induction stack generalizing inner with
  | nil =>
    rw [OnPath] at h
    rw [h]
    rfl
  | cons frame outer ih =>
    obtain ⟨-, -, -, houter⟩ := h
    rw [List.map_cons, List.getLast?_cons_cons]
    exact ih houter

/-- The state of a walk from `start`. -/
structure Walking (index : MentionIndex) (start : String) (met : NameSet) (left : List String)
    (stack : List Frame) : Prop where
  ordered : index.IsOrdered left
  reached : ∀ x ∈ left, ReflTransGen index.LeadsTo start x
  met_iff : ∀ x, x ∈ met ↔ x ∈ left ∨ x ∈ stack.map Frame.name
  nodup : (stack.map Frame.name).Nodup
  disjoint : ∀ x ∈ stack.map Frame.name, x ∉ left
  onPath : index.OnPath start left none stack

theorem dropWhile_ne_nil_of_mem {next : String} {path : List String} (hmem : next ∈ path) :
    path.dropWhile (· ≠ next) ≠ [] := by
  intro hnil
  have hall := List.dropWhile_eq_nil_iff.1 hnil next hmem
  simp at hall

theorem isCycle_closeCycle {next : String} {path : List String} (hmem : next ∈ path)
    (hnodup : path.Nodup)
    (hchain : List.IsChain (fun a b => a ∈ index.mentioners b) (next :: path)) :
    index.IsCycle (closeCycle next path).path := by
  refine ⟨next, path.takeWhile (· ≠ next), rfl, ?_, ?_⟩
  · refine List.nodup_cons.2 ⟨fun h => ?_, hnodup.sublist (List.takeWhile_sublist _)⟩
    simpa using List.mem_takeWhile_imp h
  · -- the path up to `next` is an initial piece of the whole path
    have hpiece : path.takeWhile (· ≠ next) ++ [next] <+: path := by
      refine ⟨(path.dropWhile (· ≠ next)).tail, ?_⟩
      have hdrop := dropWhile_ne_nil_of_mem hmem
      have hhead : (path.dropWhile (· ≠ next)).head hdrop = next := by
        have := List.head_dropWhile_not (· ≠ next) hdrop
        simpa using this
      calc path.takeWhile (· ≠ next) ++ [next] ++ (path.dropWhile (· ≠ next)).tail
          = path.takeWhile (· ≠ next) ++
              ((path.dropWhile (· ≠ next)).head hdrop :: (path.dropWhile (· ≠ next)).tail) := by
            rw [hhead, List.append_assoc, List.singleton_append]
        _ = path := by rw [List.cons_head_tail, List.takeWhile_append_dropWhile]
    exact hchain.prefix (List.cons_prefix_cons.2 ⟨rfl, hpiece⟩)

/-- A cycle that passes through the outermost name of the path is closed there. -/
theorem head?_closeCycle {next start : String} {path : List String} (hmem : next ∈ path)
    (hnodup : path.Nodup) (hlast : path.getLast? = some start)
    (hstart : start ∈ (closeCycle next path).path) :
    (closeCycle next path).path.head? = some start := by
  have hclosed : start = next := by
    by_contra hne
    have hbefore : start ∈ path.takeWhile (· ≠ next) := by
      simpa [closeCycle, hne] using hstart
    -- the path goes on up to `next`, so what comes before `next` does not end it
    have hafter : start ∈ path.dropWhile (· ≠ next) := by
      rw [← List.takeWhile_append_dropWhile (p := (· ≠ next)) (l := path),
        List.getLast?_append_of_ne_nil _ (dropWhile_ne_nil_of_mem hmem)] at hlast
      exact List.mem_of_getLast? hlast
    rw [← List.takeWhile_append_dropWhile (p := (· ≠ next)) (l := path)] at hnodup
    exact (List.nodup_append.1 hnodup).2.2 start hbefore start hafter rfl
  rw [hclosed]
  rfl

/-! ### Whole walks -/

/-- What a walk from `start` may return: an ordered list of all that the start leads to, or a
cycle among it, which is closed at the start if it passes through it. -/
def Finds (index : MentionIndex) (start : String) : Except Cycle (List String) → Prop
  | .ok order =>
    index.IsOrdered order ∧ order.head? = some start ∧
      ∀ x ∈ order, ReflTransGen index.LeadsTo start x
  | .error cycle =>
    index.IsCycle cycle.path ∧ (∀ x ∈ cycle.path, ReflTransGen index.LeadsTo start x) ∧
      (start ∈ cycle.path → cycle.path.head? = some start)

/-- Leaving a name whose mentioners have all been left. -/
theorem Walking.leave {start name : String} {met : NameSet} {left : List String}
    {outer : List Frame} (hw : index.Walking start met left (⟨name, []⟩ :: outer)) :
    index.Walking start met (name :: left) outer := by
  obtain ⟨hcover, -, -, houter⟩ := hw.onPath
  have hnodup := List.nodup_cons.1 hw.nodup
  refine ⟨⟨hw.disjoint name (.head _), fun y hy => ?_, hw.ordered⟩, fun x hx => ?_, fun x => ?_,
    hnodup.2, fun x hx hmem => ?_, houter.leave⟩
  · -- no mentioner is pending and none is further in, so all of them have been left
    rcases hcover y hy with hy | hy | hy
    · simp at hy
    · exact hy
    · simp at hy
  · rcases List.mem_cons.1 hx with rfl | hx
    · exact houter.reaches
    · exact hw.reached x hx
  · rw [hw.met_iff, List.map_cons, List.mem_cons, List.mem_cons]
    tauto
  · -- the name that was left stood on the path once
    rcases List.mem_cons.1 hmem with rfl | hmem
    · exact hnodup.1 hx
    · exact hw.disjoint x (.tail _ hx) hmem

theorem Walking.skip {start name next : String} {met : NameSet} {left pending : List String}
    {outer : List Frame} (hw : index.Walking start met left (⟨name, next :: pending⟩ :: outer))
    (hnext : next ∈ left) : index.Walking start met left (⟨name, pending⟩ :: outer) := by
  obtain ⟨hcover, hpending, hinner, houter⟩ := hw.onPath
  refine { hw with onPath := ⟨fun y hy => ?_, fun y hy => hpending y (.tail _ hy), hinner, houter⟩ }
  rcases hcover y hy with hy | hy | hy
  · rcases List.mem_cons.1 hy with rfl | hy
    · exact .inr (.inl hnext)
    · exact .inl hy
  · exact .inr (.inl hy)
  · exact .inr (.inr hy)

/-- Going on to a mentioner that has not been met. -/
theorem Walking.enter {start name next : String} {met : NameSet} {left pending : List String}
    {outer : List Frame} (hw : index.Walking start met left (⟨name, next :: pending⟩ :: outer))
    (hnext : next ∉ met) :
    index.Walking start (met.insert next) left
      (index.enter next :: ⟨name, pending⟩ :: outer) := by
  obtain ⟨hcover, hpending, hinner, houter⟩ := hw.onPath
  have hfresh : next ∉ left ∧ next ∉ (⟨name, pending⟩ :: outer).map Frame.name := by
    rw [hw.met_iff] at hnext
    exact not_or.1 hnext
  refine ⟨hw.ordered, hw.reached, fun x => ?_, List.nodup_cons.2 ⟨hfresh.2, hw.nodup⟩,
    fun x hx => ?_, fun y hy => .inl hy, fun y hy => hy, by simp, fun y hy => ?_,
    fun y hy => hpending y (.tail _ hy), fun y hy => ?_, houter⟩
  · have hmet := hw.met_iff x
    rw [Std.ExtTreeSet.mem_insert, Std.compare_eq_iff_eq, hmet]
    simp only [MentionIndex.enter, List.map_cons, List.mem_cons]
    tauto
  · rcases List.mem_cons.1 hx with rfl | hx
    · exact hfresh.1
    · exact hw.disjoint x hx
  · -- of the mentioners one frame out, `next` is now the name further in
    rcases hcover y hy with hy | hy | hy
    · rcases List.mem_cons.1 hy with rfl | hy
      · exact .inr (.inr rfl)
      · exact .inl hy
    · exact .inr (.inl hy)
    · simp at hy
  · obtain rfl := Option.some.inj hy
    exact hpending _ (.head _)

/-- Meeting a mentioner that stands on the path. -/
theorem Walking.close {start name next : String} {met : NameSet} {left pending : List String}
    {outer : List Frame} (hw : index.Walking start met left (⟨name, next :: pending⟩ :: outer))
    (hnext : next ∈ name :: outer.map Frame.name) :
    index.Finds start (.error (closeCycle next (name :: outer.map Frame.name))) := by
  obtain ⟨-, hpending, -, houter⟩ := hw.onPath
  have hmention : next ∈ index.mentioners name := hpending next (.head _)
  have hcycle := isCycle_closeCycle hnext hw.nodup
    (List.isChain_cons_cons.2 ⟨hmention, houter.isChain⟩)
  refine ⟨hcycle, fun x hx => ?_, head?_closeCycle hnext hw.nodup houter.getLast?_eq⟩
  have hpath : x ∈ name :: outer.map Frame.name := by
    simp only [closeCycle, List.mem_cons, List.mem_append, List.not_mem_nil, or_false] at hx
    rcases hx with rfl | hx | rfl
    · exact hnext
    · exact (List.takeWhile_sublist _).subset hx
    · exact hnext
  -- every name on the path is reached, the outer ones on the way to the inner ones
  clear hcycle hx hmention hpending hnext hw
  induction outer generalizing name with
  | nil =>
    obtain rfl := List.mem_singleton.1 hpath
    exact houter.reaches
  | cons frame outer ih =>
    rcases List.mem_cons.1 hpath with rfl | hpath
    · exact houter.reaches
    · exact ih houter.2.2.2 hpath

theorem standsOn_iff {name next : String} {outer : List Frame} :
    (next = name ∨ outer.any (·.name == next) = true) ↔ next ∈ name :: outer.map Frame.name := by
  rw [List.mem_cons, List.any_eq_true, List.mem_map]
  simp only [beq_iff_eq]

theorem Walking.finds {start : String} {met : NameSet} {left : List String} {stack : List Frame}
    (h : index.Pending stack) (hw : index.Walking start met left stack) :
    index.Finds start (index.walk met left stack h) := by
  induction met, left, stack, h using walk.induct with
  | case1 met left h _ =>
    rw [walk]
    exact ⟨hw.ordered, hw.onPath, hw.reached⟩
  | case2 met left name outer h _ ih =>
    rw [walk]
    exact ih hw.leave
  | case3 met left name next pending outer h hrest hmet hpath _ =>
    rw [walk, if_pos hmet, if_pos hpath]
    exact hw.close (standsOn_iff.1 hpath)
  | case4 met left name next pending outer h hrest hmet hpath _ ih =>
    rw [walk, if_pos hmet, if_neg hpath]
    -- what has been met is on the path or has been left
    rcases (hw.met_iff next).1 hmet with hleft | hstack
    · exact ih (hw.skip hleft)
    · exact absurd (standsOn_iff.2 hstack) hpath
  | case5 met left name next pending outer h hrest hmet _ ih =>
    rw [walk, if_neg hmet]
    exact ih (hw.enter hmet)

theorem walking_start (index : MentionIndex) (start : String) :
    index.Walking start {start} [] [index.enter start] where
  ordered := trivial
  reached := by simp
  met_iff x := by
    rw [Std.ExtTreeSet.singleton_eq_insert, Std.ExtTreeSet.mem_insert, Std.compare_eq_iff_eq]
    simp [MentionIndex.enter, eq_comm]
  nodup := by simp
  disjoint := by simp
  onPath := ⟨fun y hy => .inl hy, fun y hy => hy, by simp, rfl⟩

theorem affected_finds (index : MentionIndex) (start : String) :
    index.Finds start (index.affected start) :=
  (index.walking_start start).finds _

/-- A list that the walk returns: it is ordered and holds exactly what the start leads to. -/
theorem affected_ok {start : String} {order : List String} (h : index.affected start = .ok order) :
    index.IsOrdered order ∧ order.head? = some start ∧
      ∀ x, x ∈ order ↔ ReflTransGen index.LeadsTo start x := by
  have hfinds := index.affected_finds start
  rw [h] at hfinds
  obtain ⟨hordered, hhead, hreached⟩ := hfinds
  -- an ordered list holds what its names lead to, so one that holds the start is complete
  have hstart : start ∈ order := List.mem_of_mem_head? hhead
  exact ⟨hordered, hhead, fun x => ⟨hreached x, hordered.mem_of_reaches hstart⟩⟩

/-- A path that the walk returns: it is a cycle that the start leads to, and it is closed at the
start if it passes through it. -/
theorem affected_error {start : String} {cycle : Cycle}
    (h : index.affected start = .error cycle) :
    index.IsCycle cycle.path ∧ (∀ x ∈ cycle.path, ReflTransGen index.LeadsTo start x) ∧
      (start ∈ cycle.path → cycle.path.head? = some start) := by
  have hfinds := index.affected_finds start
  rw [h] at hfinds
  exact hfinds

/-- The walk returns a list exactly if the start leads to no name that leads to itself. -/
theorem affected_isOk_iff {start : String} :
    (∃ order, index.affected start = .ok order) ↔
      ∀ x, ReflTransGen index.LeadsTo start x → ¬ TransGen index.LeadsTo x x := by
  constructor
  · rintro ⟨order, h⟩ x hx
    obtain ⟨hordered, -, hmem⟩ := affected_ok h
    exact hordered.not_transGen_self ((hmem x).2 hx)
  · intro hacyclic
    cases h : index.affected start with
    | ok order => exact ⟨order, rfl⟩
    | error cycle =>
      obtain ⟨hcycle, hreached, -⟩ := affected_error h
      obtain ⟨x, hx, hloop⟩ := hcycle.exists_transGen_self
      exact absurd hloop (hacyclic x (hreached x hx))

/-! ### What the walk looks at -/

theorem mentioners_eq {index' : MentionIndex} {x : String}
    (h : ∀ y, index.LeadsTo x y ↔ index'.LeadsTo x y) :
    index.mentioners x = index'.mentioners x := by
  have hset : index.backward.neighbours x = index'.backward.neighbours x :=
    Std.ExtTreeSet.ext_mem fun y => by simpa [LeadsTo, mentioners] using h y
  rw [mentioners, mentioners, hset]

theorem walk_congr {index' : MentionIndex} {reached : String → Prop}
    (hsame : ∀ x, reached x → index.mentioners x = index'.mentioners x)
    (hclosed : ∀ x y, reached x → index.LeadsTo x y → reached y)
    {met : NameSet} {left : List String} {stack : List Frame} (h : index.Pending stack)
    (h' : index'.Pending stack) (hstack : ∀ frame ∈ stack, ∀ y ∈ frame.pending, reached y) :
    index.walk met left stack h = index'.walk met left stack h' := by
  induction met, left, stack, h using walk.induct with
  | case1 met left h _ => rw [walk, walk]
  | case2 met left name outer h _ ih =>
    conv_lhs => rw [walk]
    conv_rhs => rw [walk]
    exact ih _ fun frame hframe => hstack frame (.tail _ hframe)
  | case3 met left name next pending outer h hrest hmet hpath _ =>
    rw [walk, if_pos hmet, if_pos hpath, walk, if_pos hmet, if_pos hpath]
  | case4 met left name next pending outer h hrest hmet hpath _ ih =>
    obtain ⟨hframe, houter⟩ := List.forall_mem_cons.1 hstack
    conv_lhs => rw [walk, if_pos hmet, if_neg hpath]
    conv_rhs => rw [walk, if_pos hmet, if_neg hpath]
    exact ih _ (List.forall_mem_cons.2 ⟨fun y hy => hframe y (.tail _ hy), houter⟩)
  | case5 met left name next pending outer h hrest hmet _ ih =>
    obtain ⟨hframe, houter⟩ := List.forall_mem_cons.1 hstack
    have hnext : reached next := hframe next (.head _)
    have henter : index'.enter next = index.enter next := by
      rw [MentionIndex.enter, MentionIndex.enter, hsame next hnext]
    conv_lhs => rw [walk, if_neg hmet]
    conv_rhs => rw [walk, if_neg hmet]
    simp only [henter]
    refine ih _ (List.forall_mem_cons.2 ⟨fun y hy => hclosed next y hnext hy, ?_⟩)
    exact List.forall_mem_cons.2 ⟨fun y hy => hframe y (.tail _ hy), houter⟩

/-- What the walk finds depends on the mentioners of the names that the start leads to alone. -/
theorem affected_congr {index' : MentionIndex} {start : String}
    (hsame : ∀ x, ReflTransGen index.LeadsTo start x →
      ∀ y, index.LeadsTo x y ↔ index'.LeadsTo x y) :
    index.affected start = index'.affected start := by
  have hmentioners : ∀ x, ReflTransGen index.LeadsTo start x →
      index.mentioners x = index'.mentioners x := fun x hx => mentioners_eq (hsame x hx)
  have henter : index'.enter start = index.enter start := by
    rw [MentionIndex.enter, MentionIndex.enter, hmentioners start .refl]
  unfold affected
  simp only [henter]
  refine walk_congr hmentioners (fun _ _ => .tail) _ _ ?_
  exact List.forall_mem_singleton.2 fun y hy => .single hy

end FormulaSheet.MentionIndex
