/-
What a read evaluates.

A read evaluates the formulas that it needs and that have no computed value yet, each of them once,
and none before another that it mentions.  What it has computed in the end is every cell that the
name leads to.

* **`evaluations`** — the cells whose formulas were evaluated, by what was reported;
* **`Closed`** — what a computed formula mentions is computed, which edits and reads keep;
* **`Waits`** — what is laid aside stands on the stack, below all that it waits for;
* **`Settling`** — how far `settle` has come, with one lemma for each thing that it does with the
  top of its stack;
* **`evaluations_run`** — what a read evaluates and what it has computed, at any time of any run.

The same name may stand on the stack several times, so the length of the stack says little.  What
counts is that a formula is evaluated where it has no value and everything it mentions has one: then
no formula that was evaluated before mentions it, for that one would not have been ready.
-/
import FormulaSheet.Proofs.Document.Settled
import Mathlib

namespace FormulaSheet.Document

open Relation

variable {cells : Cells} {found cache cache' : Cache} {name top : String} {laidAside : NameSet}
  {events events' : List Event} {below : List String}

/-! ### What was evaluated -/

/-- The cells whose formulas were evaluated, by what was reported, in the same order. -/
def evaluations (events : List Event) : List String :=
  events.filterMap fun
    | .evaluating name _ => some name
    | _ => none

theorem mem_evaluations_iff {a : String} :
    a ∈ evaluations events ↔ ∃ f, .evaluating a f ∈ events := by
  simp only [evaluations, List.mem_filterMap]
  constructor
  · rintro ⟨event, hevent, ha⟩
    cases event with
    | evaluating name f =>
      obtain rfl := Option.some.inj ha
      exact ⟨f, hevent⟩
    | _ => cases ha
  · rintro ⟨f, hf⟩
    exact ⟨_, hf, rfl⟩

theorem evaluations_reverse (events : List Event) :
    evaluations events.reverse = (evaluations events).reverse :=
  List.filterMap_reverse

/-! ### Caches that leave no gaps -/

/-- What a computed formula mentions is computed, unless it is empty. -/
def Closed (cells : Cells) (cache : Cache) : Prop :=
  ∀ a b, a ∈ cache → Mentions cells a b → isUnsettled cells cache b = false

theorem closed_empty (cells : Cells) : Closed cells ∅ := by
  intro a b ha
  simp at ha

theorem mem_cells_of_mentions {a b : String} (h : Mentions cells a b) : a ∈ cells :=
  Std.ExtTreeMap.mem_keys.1 h.mem_keys

theorem Closed.isUnsettled_of_reaches (h : Closed cells cache)
    (hname : isUnsettled cells cache name = false) {x : String}
    (hx : ReflTransGen (Mentions cells) name x) : isUnsettled cells cache x = false := by
  induction hx with
  | refl => exact hname
  | tail _ hxy ih =>
    exact h _ _ (isUnsettled_eq_false_iff.1 ih (mem_cells_of_mentions hxy)) hxy

theorem isUnsettled_insert_of_false {value : CellValue} {x : String}
    (h : isUnsettled cells cache x = false) :
    isUnsettled cells (cache.insert top value) x = false :=
  isUnsettled_eq_false_iff.2 fun hx =>
    Std.ExtTreeMap.mem_insert.2 (.inr (isUnsettled_eq_false_iff.1 h hx))

/-- A value is computed once everything that is mentioned has one. -/
theorem Closed.insert (h : Closed cells cache)
    (hready : ∀ v, Mentions cells top v → isUnsettled cells cache v = false) (value : CellValue) :
    Closed cells (cache.insert top value) := by
  intro a b ha hab
  rcases Std.ExtTreeMap.mem_insert.1 ha with htop | ha
  · obtain rfl := Std.compare_eq_iff_eq.1 htop
    exact isUnsettled_insert_of_false (hready b hab)
  · exact isUnsettled_insert_of_false (h a b ha hab)

/-- An accepted edit leaves no gaps: what is forgotten is mentioned by nothing that is kept. -/
theorem Closed.accepted {doc : Document} (h : Closed doc.cells doc.cache) (hmirrors : doc.Mirrors)
    {contents : Option Contents} {affected : List String}
    (hok : (doc.mentionsWith name contents).affected name = .ok affected) :
    Closed (doc.accepted name contents affected).cells
      (doc.accepted name contents affected).cache := by
  have hmem : ∀ x : String, x ∈ (doc.accepted name contents affected).cache ↔
      x ∉ affected ∧ x ∈ doc.cache := by
    intro x
    rw [Document.accepted, Std.ExtTreeMap.mem_iff_isSome_getElem?, getElem?_forget]
    split
    · next hmem => simp [hmem]
    · next hnot => rw [and_iff_right hnot, Std.ExtTreeMap.mem_iff_isSome_getElem?]
  intro a b ha hab
  obtain ⟨hnot, ha⟩ := (hmem a).1 ha
  rw [hmirrors.mem_affected_iff hok] at hnot
  -- neither the name nor what it mentions is edited
  have hne : a ≠ name := by
    rintro rfl
    exact hnot .refl
  have hold : Mentions doc.cells a b := by
    rw [Document.accepted] at hab
    rwa [mentions_cellsWith_iff, if_neg hne] at hab
  have hkept : ¬ ReflTransGen (Mentions doc.cells) b name := fun hb => hnot (.head hold hb)
  refine isUnsettled_eq_false_iff.2 fun hb => (hmem b).2 ⟨?_, ?_⟩
  · rwa [hmirrors.mem_affected_iff hok]
  · refine isUnsettled_eq_false_iff.1 (h a b ha hold) ?_
    rwa [Std.ExtTreeMap.mem_iff_isSome_getElem?, Document.accepted,
      getElem?_cellsWith_of_reaches hkept .refl, ← Std.ExtTreeMap.mem_iff_isSome_getElem?] at hb

/-! ### What is laid aside -/

/-- What is laid aside and not computed stands on the stack: it leads to all that stands above it,
and among that is everything it waits for. -/
def Waits (cells : Cells) (cache : Cache) (laidAside : NameSet) (stack : List String) : Prop :=
  ∀ x ∈ laidAside, isUnsettled cells cache x = true → ∃ above below, stack = above ++ x :: below ∧
    (∀ y ∈ above, TransGen (Mentions cells) x y) ∧
    ∀ v, Mentions cells x v → isUnsettled cells cache v = true → v ∈ above

/-- The top of the stack is taken off once it is settled. -/
theorem Waits.pop (h : Waits cells cache laidAside (top :: below))
    (hmono : ∀ x, isUnsettled cells cache x = false → isUnsettled cells cache' x = false)
    (htop : isUnsettled cells cache' top = false) : Waits cells cache' laidAside below := by
  have hstill : ∀ x, isUnsettled cells cache' x = true → isUnsettled cells cache x = true := by
    intro x hx
    by_contra hsettled
    rw [hmono x (Bool.eq_false_iff.2 hsettled)] at hx
    cases hx
  have hne : ∀ x, isUnsettled cells cache' x = true → x ≠ top := by
    rintro x hx rfl
    rw [htop] at hx
    cases hx
  intro x hx hunsettled
  obtain ⟨above, rest, hstack, hleads, hwaits⟩ := h x hx (hstill x hunsettled)
  -- `x` has something above it: the top itself is settled now, so it is not `x`
  cases above with
  | nil => exact absurd (List.cons.inj hstack).1.symm (hne x hunsettled)
  | cons first above =>
    obtain ⟨rfl, rfl⟩ := List.cons.inj hstack
    refine ⟨above, rest, rfl, fun y hy => hleads y (.tail _ hy), fun v hv hvunsettled => ?_⟩
    exact (List.mem_cons.1 (hwaits v hv (hstill v hvunsettled))).resolve_left (hne v hvunsettled)

/-- The top of the stack is laid aside, with all that it waits for above it. -/
theorem Waits.push (h : Waits cells cache laidAside (top :: below)) (hfresh : top ∉ laidAside)
    {waiting : List String} (hmentions : ∀ v ∈ waiting, Mentions cells top v)
    (hall : ∀ v, Mentions cells top v → isUnsettled cells cache v = true → v ∈ waiting) :
    Waits cells cache (laidAside.insert top) (waiting ++ top :: below) := by
  intro x hx hunsettled
  rcases Std.ExtTreeSet.mem_insert.1 hx with htop | hx
  · obtain rfl := Std.compare_eq_iff_eq.1 htop
    exact ⟨waiting, below, rfl, fun y hy => .single (hmentions y hy), hall⟩
  · obtain ⟨above, rest, hstack, hleads, hwaits⟩ := h x hx hunsettled
    cases above with
    | nil =>
      -- `x` would be the top, which has not been laid aside yet
      obtain ⟨rfl, -⟩ := List.cons.inj hstack
      exact absurd hx hfresh
    | cons first above =>
      obtain ⟨rfl, rfl⟩ := List.cons.inj hstack
      refine ⟨waiting ++ top :: above, rest, by simp, fun y hy => ?_, fun v hv hvunsettled => ?_⟩
      · rcases List.mem_append.1 hy with hy | hy
        · exact (hleads top (.head _)).tail (hmentions y hy)
        · exact hleads y hy
      · exact List.mem_append_right _ (hwaits v hv hvunsettled)

/-- Where mentions never lead back, a name that was laid aside waits for nothing when it is on top
of the stack again. -/
theorem Waits.ready (h : Waits cells cache laidAside (top :: below))
    (hacyclic : ∀ a, ¬ TransGen (Mentions cells) a a) (haside : top ∈ laidAside)
    (hunsettled : isUnsettled cells cache top = true) {v : String} (hv : Mentions cells top v) :
    isUnsettled cells cache v = false := by
  obtain ⟨above, rest, hstack, hleads, hwaits⟩ := h top haside hunsettled
  cases above with
  | nil =>
    -- nothing stands above the top, so it waits for nothing
    by_contra hwaiting
    exact absurd (hwaits v hv (Bool.eq_true_of_not_eq_false hwaiting)) List.not_mem_nil
  | cons first above =>
    -- the top stands above its own place: it would lead to itself
    obtain ⟨rfl, -⟩ := List.cons.inj hstack
    exact absurd (hleads top (.head _)) (hacyclic top)

/-! ### How far `settle` has come -/

/-- How far `settle` has come with a name, from the values that it found: what it has computed and
evaluated, and what it still has to look at.  The events come last first. -/
structure Settling (cells : Cells) (found : Cache) (name : String) (laidAside : NameSet)
    (cache : Cache) (events : List Event) (stack : List String) : Prop where
  needed : ∀ x ∈ stack, ReflTransGen (Mentions cells) name x
  toCome : name ∈ stack ∨ isUnsettled cells cache name = false
  keeps : ∀ x ∈ found, cache[x]? = found[x]?
  computed : ∀ x ∈ cache, x ∈ found ∨ x ∈ cells ∧ ReflTransGen (Mentions cells) name x
  closed : Closed cells cache
  evaluating_iff : ∀ a f, .evaluating a f ∈ events ↔
    a ∈ cache ∧ a ∉ found ∧ cells[a]? = some (.formula f)
  ordered : (evaluations events).Pairwise fun later earlier =>
    later ≠ earlier ∧ ¬ Mentions cells earlier later
  waits : Waits cells cache laidAside stack

namespace Settling

theorem start (h : Closed cells found) (name : String) :
    Settling cells found name ∅ found [] [name] where
  needed x hx := by rw [List.mem_singleton.1 hx]
  toCome := .inl (.head _)
  keeps _ _ := rfl
  computed _ hx := .inl hx
  closed := h
  evaluating_iff a f := by simpa using fun ha hnot => absurd ha hnot
  ordered := .nil
  waits x hx := by simp at hx

theorem mem_cache (h : Settling cells found name laidAside cache events below) {x : String}
    (hx : x ∈ found) : x ∈ cache := by
  rwa [Std.ExtTreeMap.mem_iff_isSome_getElem?, h.keeps x hx,
    ← Std.ExtTreeMap.mem_iff_isSome_getElem?]

theorem pop (h : Settling cells found name laidAside cache events (top :: below))
    (htop : isUnsettled cells cache top = false) :
    Settling cells found name laidAside cache events below where
  needed x hx := h.needed x (.tail _ hx)
  toCome := by
    rcases h.toCome with hmem | hsettled
    · rcases List.mem_cons.1 hmem with rfl | hmem
      · exact .inr htop
      · exact .inl hmem
    · exact .inr hsettled
  keeps := h.keeps
  computed := h.computed
  closed := h.closed
  evaluating_iff := h.evaluating_iff
  ordered := h.ordered
  waits := h.waits.pop (fun _ hx => hx) htop

/-- The top of the stack is computed, evaluated if it is a formula, and taken off. -/
theorem compute (h : Settling cells found name laidAside cache events (top :: below))
    (hcell : top ∈ cells) (hnew : top ∉ cache)
    (hready : ∀ v, Mentions cells top v → isUnsettled cells cache v = false) (value : CellValue)
    (hevents : ∀ a f, .evaluating a f ∈ events' ↔
      .evaluating a f ∈ events ∨ a = top ∧ cells[top]? = some (.formula f))
    (hordered : (evaluations events').Pairwise fun later earlier =>
      later ≠ earlier ∧ ¬ Mentions cells earlier later) :
    Settling cells found name laidAside (cache.insert top value) events' below := by
  have htop : isUnsettled cells (cache.insert top value) top = false :=
    isUnsettled_eq_false_iff.2 fun _ => Std.ExtTreeMap.mem_insert_self
  have hmem : ∀ x, x ∈ cache.insert top value ↔ x = top ∨ x ∈ cache := by
    intro x
    rw [Std.ExtTreeMap.mem_insert, Std.compare_eq_iff_eq, @eq_comm _ top]
  -- what was found was there before, so it is not the top of the stack
  have hfound : top ∉ found := fun hfound => hnew (h.mem_cache hfound)
  refine ⟨fun x hx => h.needed x (.tail _ hx), ?_, fun x hx => ?_, fun x hx => ?_,
    h.closed.insert hready value, fun a f => ?_, hordered,
    h.waits.pop (fun _ hx => isUnsettled_insert_of_false hx) htop⟩
  · rcases h.toCome with hstack | hsettled
    · rcases List.mem_cons.1 hstack with rfl | hstack
      · exact .inr htop
      · exact .inl hstack
    · exact .inr (isUnsettled_insert_of_false hsettled)
  · have hne : ¬ compare top x = .eq := by
      rw [Std.compare_eq_iff_eq]
      rintro rfl
      exact hfound hx
    rw [Std.ExtTreeMap.getElem?_insert, if_neg hne, h.keeps x hx]
  · rcases (hmem x).1 hx with rfl | hx
    · exact .inr ⟨hcell, h.needed x (.head _)⟩
    · exact h.computed x hx
  · rw [hevents, h.evaluating_iff, hmem]
    constructor
    · rintro (⟨ha, hnot, hf⟩ | ⟨rfl, hf⟩)
      · exact ⟨.inr ha, hnot, hf⟩
      · exact ⟨.inl rfl, hfound, hf⟩
    · rintro ⟨rfl | ha, hnot, hf⟩
      · exact .inr ⟨rfl, hf⟩
      · exact .inl ⟨ha, hnot, hf⟩

theorem fill (h : Settling cells found name laidAside cache events (top :: below))
    {c : Contents} (hcell : cells[top]? = some c) (hplain : ∀ f, c ≠ .formula f)
    (hnew : top ∉ cache) (value : CellValue) :
    Settling cells found name laidAside (cache.insert top value) events below := by
  have hno : ∀ f, cells[top]? ≠ some (.formula f) := by
    intro f hf
    rw [hcell] at hf
    exact hplain f (Option.some.inj hf)
  refine h.compute (Std.ExtTreeMap.getElem?_eq_some_iff.1 hcell).fst hnew ?_ value
    (fun a f => ?_) h.ordered
  · rintro v ⟨f, hf, -⟩
    exact absurd hf (hno f)
  · rw [or_iff_left]
    rintro ⟨-, hf⟩
    exact hno f hf

/-- A formula is evaluated once all that it mentions is settled.  No formula that was evaluated
before mentions it: what that one mentions was settled then, and this one is not. -/
theorem evaluate (h : Settling cells found name laidAside cache events (top :: below))
    {f : Formula} (hcell : cells[top]? = some (.formula f)) (hnew : top ∉ cache)
    (hready : ∀ v, Mentions cells top v → isUnsettled cells cache v = false)
    (value : CellValue) :
    Settling cells found name laidAside (cache.insert top value) (.evaluating top f :: events)
      below := by
  have hmem : top ∈ cells := (Std.ExtTreeMap.getElem?_eq_some_iff.1 hcell).fst
  refine h.compute hmem hnew hready value (fun a g => ?_) ?_
  · rw [List.mem_cons, or_comm, hcell]
    simp [eq_comm]
  · -- what was evaluated before has a value, and all that it mentions had one before it did
    show (top :: evaluations events).Pairwise _
    refine List.pairwise_cons.2 ⟨fun earlier hearlier => ?_, h.ordered⟩
    obtain ⟨g, hg⟩ := mem_evaluations_iff.1 hearlier
    have hcached := ((h.evaluating_iff earlier g).1 hg).1
    refine ⟨?_, fun hmentions => ?_⟩
    · rintro rfl
      exact hnew hcached
    · exact hnew (isUnsettled_eq_false_iff.1 (h.closed earlier top hcached hmentions) hmem)

theorem descend (h : Settling cells found name laidAside cache events (top :: below))
    {f : Formula} (hcell : cells[top]? = some (.formula f)) (hfresh : top ∉ laidAside) :
    Settling cells found name (laidAside.insert top) cache events
      ((f.mentions.filter (isUnsettled cells cache)).reverse ++ top :: below) := by
  have hmentions : ∀ v ∈ (f.mentions.filter (isUnsettled cells cache)).reverse,
      Mentions cells top v := fun v hv =>
    (mentions_iff_of_formula hcell).2 (List.mem_filter.1 (List.mem_reverse.1 hv)).1
  refine { h with needed := fun x hx => ?_, toCome := ?_, waits := ?_ }
  · rcases List.mem_append.1 hx with hx | hx
    · exact (h.needed top (.head _)).tail (hmentions x hx)
    · exact h.needed x hx
  · exact h.toCome.imp_left fun hmem => List.mem_append_right _ hmem
  · refine h.waits.push hfresh hmentions fun v hv hunsettled => ?_
    have hmem := (mentions_iff_of_formula hcell).1 hv
    exact List.mem_reverse.2 (List.mem_filter.2 ⟨hmem, hunsettled⟩)

/-- Where mentions never lead back, `settle` comes to the end of its stack. -/
theorem settle (hacyclic : ∀ a, ¬ TransGen (Mentions cells) a a) {stack : List String}
    (h : Settling cells found name laidAside cache events stack) :
    ∃ laidAside', Settling cells found name laidAside'
      (Document.settle cells laidAside cache events stack).1
      (Document.settle cells laidAside cache events stack).2 [] := by
  fun_induction Document.settle cells laidAside cache events stack with
  | case1 laidAside cache events => exact ⟨laidAside, h⟩
  | case2 laidAside cache events top below hcached ih =>
    exact ih (h.pop (isUnsettled_eq_false_iff.2 fun _ => Std.ExtTreeMap.mem_iff_contains.2 hcached))
  | case3 laidAside cache events top below hcached hcell ih =>
    refine ih (h.pop (isUnsettled_eq_false_iff.2 fun hmem => ?_))
    simp [Std.ExtTreeMap.mem_iff_isSome_getElem?, hcell] at hmem
  | case4 laidAside cache events top below hcached x hcell ih =>
    exact ih (h.fill hcell nofun (fun hmem => hcached (Std.ExtTreeMap.mem_iff_contains.1 hmem)) _)
  | case5 laidAside cache events top below hcached s hcell ih =>
    exact ih (h.fill hcell nofun (fun hmem => hcached (Std.ExtTreeMap.mem_iff_contains.1 hmem)) _)
  | case6 laidAside cache events top below hcached f hcell waiting haside value ih =>
    have hnew : top ∉ cache := fun hmem => hcached (Std.ExtTreeMap.mem_iff_contains.1 hmem)
    refine ih (h.evaluate hcell hnew (fun v hv => ?_) value)
    -- it is ready if nothing waits, and also if it comes up for the second time
    rcases haside with hempty | haside
    · have hmem := (mentions_iff_of_formula hcell).1 hv
      simpa using List.filter_eq_nil_iff.1 (List.isEmpty_iff.1 hempty) v hmem
    · refine h.waits.ready hacyclic (Std.ExtTreeSet.mem_iff_contains.2 haside) ?_ hv
      simpa [isUnsettled, hcached] using mem_cells_of_mentions hv
  | case7 laidAside cache events top below hcached f hcell waiting haside ih =>
    refine ih (h.descend hcell fun hmem => haside (.inr ?_))
    exact Std.ExtTreeSet.mem_iff_contains.1 hmem

theorem isUnsettled_of_reaches (h : Settling cells found name laidAside cache events [])
    {x : String} (hx : ReflTransGen (Mentions cells) name x) : isUnsettled cells cache x = false :=
  h.closed.isUnsettled_of_reaches (h.toCome.resolve_left List.not_mem_nil) hx

end Settling

/-! ### Reads -/

/-- What a read reports is what `settle` evaluates. -/
theorem exists_settling {doc : Document} (hmirrors : doc.Mirrors)
    (h : Closed doc.cells doc.cache) (name : String) :
    ∃ laidAside events, Settling doc.cells doc.cache name laidAside
        (doc.valueOf name).document.cache events [] ∧
      (∀ a f, .evaluating a f ∈ (doc.valueOf name).events ↔ .evaluating a f ∈ events) ∧
      evaluations (doc.valueOf name).events = (evaluations events).reverse := by
  have hstart := Settling.start h name
  unfold valueOf
  split
  · next value hcached =>
    have hmem : name ∈ doc.cache := (Std.ExtTreeMap.getElem?_eq_some_iff.1 hcached).fst
    exact ⟨∅, [], hstart.pop (isUnsettled_eq_false_iff.2 fun _ => hmem), by simp, rfl⟩
  · obtain ⟨laidAside, hsettling⟩ := hstart.settle hmirrors.acyclic
    exact ⟨laidAside, _, hsettling, fun a f => List.mem_reverse, evaluations_reverse _⟩

theorem Closed.value {doc : Document} (h : Closed doc.cells doc.cache) (hmirrors : doc.Mirrors)
    (spelling : String) :
    Closed (doc.value spelling).document.cells (doc.value spelling).document.cache := by
  unfold Document.value
  split
  · exact h
  · next name _ =>
    obtain ⟨laidAside, events, hsettling, -⟩ := exists_settling hmirrors h name
    have hcells : (doc.valueOf name).document.cells = doc.cells := by
      unfold valueOf
      split <;> rfl
    dsimp only
    rw [hcells]
    exact hsettling.closed

theorem Closed.run (config : SheetConfig) (operations : List Operation) :
    Closed ((new config).run operations).cells ((new config).run operations).cache := by
  refine (run_invariant (P := fun doc => doc.Mirrors ∧ Closed doc.cells doc.cache)
    (fun config => ⟨.new config, closed_empty _⟩) (fun spelling input h => ?_)
    (fun spelling h => ⟨h.1.value spelling, h.2.value h.1 spelling⟩)
    (fun h => ⟨h.1.saved, h.2⟩) config operations).2
  refine ⟨h.1.edit spelling input, ?_⟩
  rcases edit_cases h.1 spelling input with hdoc | ⟨name, contents, affected, -, -, hok, hdoc⟩
  · rw [hdoc]
    exact h.2
  · rw [hdoc]
    exact h.2.accepted h.1 hok

/-- A read, at any time of any run, comes to an end.  The formulas that it evaluates are those of
the formula cells that the name leads to by mentions, itself included, and that were not computed
before; each is evaluated once, and none before a formula that it mentions.  Afterwards the computed
cells are those that were computed before and all cells that the name leads to, and the values that
were computed before are still the same. -/
theorem evaluations_run {config : SheetConfig} {operations : List Operation}
    {spelling name : String} (hname : ((new config).run operations).resolve spelling = .ok name) :
    let doc := (new config).run operations
    let reply := doc.value spelling
    Turns doc.cells (doc.cache, [name]) (reply.document.cache, []) ∧
      (∀ a f, .evaluating a f ∈ reply.events ↔
        ReflTransGen (Mentions doc.cells) name a ∧ doc.cells[a]? = some (.formula f) ∧
          a ∉ doc.cache) ∧
      (evaluations reply.events).Nodup ∧
      (evaluations reply.events).Pairwise (fun a b => ¬ Mentions doc.cells a b) ∧
      (∀ a, a ∈ reply.document.cache ↔
        a ∈ doc.cache ∨ a ∈ doc.cells ∧ ReflTransGen (Mentions doc.cells) name a) ∧
      ∀ a ∈ doc.cache, reply.document.cache[a]? = doc.cache[a]? := by
  intro doc reply
  have h : doc.Sound := Sound.run config operations
  have hread : reply = { doc.valueOf name with answer := .ok (doc.valueOf name).answer } := by
    show doc.value spelling = _
    unfold value
    rw [hname]
  rw [hread]
  obtain ⟨-, hturns, -, -⟩ := valueOf_spec h.mirrors h.kept name
  obtain ⟨laidAside, events, hsettling, hevents, horder⟩ :=
    exists_settling h.mirrors (Closed.run config operations) name
  have hcomputed : ∀ a, ReflTransGen (Mentions doc.cells) name a → a ∈ doc.cells →
      a ∈ (doc.valueOf name).document.cache := fun a ha hcell =>
    isUnsettled_eq_false_iff.1 (hsettling.isUnsettled_of_reaches ha) hcell
  refine ⟨hturns, fun a f => ?_, ?_, ?_, fun a => ⟨hsettling.computed a, ?_⟩, hsettling.keeps⟩
  · rw [hevents, hsettling.evaluating_iff]
    constructor
    · rintro ⟨ha, hnew, hf⟩
      exact ⟨((hsettling.computed a ha).resolve_left hnew).2, hf, hnew⟩
    · rintro ⟨hreach, hf, hnew⟩
      have hcell : a ∈ doc.cells := (Std.ExtTreeMap.getElem?_eq_some_iff.1 hf).fst
      exact ⟨hcomputed a hreach hcell, hnew, hf⟩
  · rw [horder, List.nodup_reverse]
    exact hsettling.ordered.imp And.left
  · rw [horder, List.pairwise_reverse]
    exact hsettling.ordered.imp And.right
  · rintro (ha | ⟨hcell, hreach⟩)
    · exact hsettling.mem_cache ha
    · exact hcomputed a hreach hcell

/-- Where two names mention a third, which was read before, a read of what mentions both evaluates
these two names only. -/
theorem evaluations_run_diamond :
    let doc := (new {}).run
      [.edit "a" "=b+c", .edit "b" "=d", .edit "c" "=d*d", .edit "d" "note", .value "c"]
    doc.resolve "a" = .ok "a" ∧ evaluations (doc.value "a").events = ["b", "a"] ∧
      ¬ Mentions doc.cells "b" "a" ∧
      ∀ x ∈ doc.cache, (doc.value "a").document.cache[x]? = doc.cache[x]? := by
  have hname : ((new {}).run
      [.edit "a" "=b+c", .edit "b" "=d", .edit "c" "=d*d", .edit "d" "note", .value "c"]).resolve
      "a" = .ok "a" := by
    cbv
  have hevents : evaluations (((new {}).run
      [.edit "a" "=b+c", .edit "b" "=d", .edit "c" "=d*d", .edit "d" "note", .value "c"]).value
      "a").events = ["b", "a"] := by
    cbv
  obtain ⟨-, -, -, hpairwise, -, hkeeps⟩ := evaluations_run hname
  rw [hevents] at hpairwise
  exact ⟨hname, hevents, (List.pairwise_cons.1 hpairwise).1 "a" (.head _), hkeeps⟩

end FormulaSheet.Document
