/-
Computed values are the values of cells.

A value in the cache is the value of its cell by what the cells hold now.  An accepted edit
forgets the values of the edited name and of all that lead to it by mentions; what it keeps
does not lead there, neither before the edit nor after it.

* **`Kept`** — every value in a cache is the value of a cell;
* **`turn`** — one turn of the loop that computes values, which lays nothing aside and may go on
  forever where a formula depends on itself;
* **`settle_top`** — the top of a stack is settled: the loop comes down to what lies below it, with
  its value kept, and `settle` does the same;
* **`value_run`** — after every run a read answers the value by what the cells hold.

While `settle` works on a name, what it has laid aside and not computed leads to that name by
mentions.  So where no mentions lead back the name itself was not laid aside, and `settle` never
makes use of having laid it aside.
-/
import FormulaSheet.Proofs.Document.Meaning
import FormulaSheet.Proofs.Document.Reach

namespace FormulaSheet.Document

open Relation

variable {cells : Cells} {cache cache' : Cache} {name : String}

/-! ### Caches -/

/-- Every value in a cache is the value of a cell. -/
def Kept (cells : Cells) (cache : Cache) : Prop :=
  ∀ (name : String) (value : CellValue), cache[name]? = some value →
    name ∈ cells ∧ HasValue cells name value

theorem kept_empty (cells : Cells) : Kept cells ∅ := by
  intro name value h
  simp at h

theorem Kept.insert (h : Kept cells cache) {value : CellValue} (hname : name ∈ cells)
    (hvalue : HasValue cells name value) : Kept cells (cache.insert name value) := by
  intro a w ha
  rw [Std.ExtTreeMap.getElem?_insert] at ha
  split at ha
  · next heq =>
    obtain rfl := Std.compare_eq_iff_eq.1 heq
    obtain rfl := Option.some.inj ha
    exact ⟨hname, hvalue⟩
  · exact h a w ha

theorem getElem?_forget (cache : Cache) (names : List String) (a : String) :
    (forget cache names)[a]? = if a ∈ names then none else cache[a]? := by
  unfold forget
  induction names generalizing cache with
  | nil => simp
  | cons name rest ih =>
    rw [List.foldl_cons, ih, Std.ExtTreeMap.getElem?_erase]
    by_cases hname : a = name
    · subst hname
      simp
    · simp [hname, Ne.symm hname]

/-! ### Accepted edits -/

/-- An accepted edit forgets every value that it may change. -/
theorem Kept.accepted {doc : Document} (h : Kept doc.cells doc.cache) (hmirrors : doc.Mirrors)
    {contents : Option Contents} {affected : List String}
    (hok : (doc.mentionsWith name contents).affected name = .ok affected) :
    Kept (doc.accepted name contents affected).cells
      (doc.accepted name contents affected).cache := by
  intro a value ha
  rw [Document.accepted, getElem?_forget] at ha
  split at ha
  · cases ha
  · next hnot =>
    obtain ⟨hmem, hvalue⟩ := h a value ha
    -- what leads to the edited name was forgotten
    have hagree : ∀ x, ReflTransGen (Mentions doc.cells) a x →
        (cellsWith doc.cells name contents)[x]? = doc.cells[x]? := by
      intro x hx
      rw [hmirrors.mem_affected_iff hok] at hnot
      exact getElem?_cellsWith_of_reaches hnot hx
    refine ⟨?_, hvalue.of_agree hagree⟩
    rw [Std.ExtTreeMap.mem_iff_isSome_getElem?, Document.accepted, hagree a .refl,
      ← Std.ExtTreeMap.mem_iff_isSome_getElem?]
    exact hmem

/-! ### The loop -/

/-- One turn of the loop: the top of the stack is dropped, or computed, or what it waits for is put
above it. -/
def turn (cells : Cells) (cache : Cache) : List String → Cache × List String
  | [] => (cache, [])
  | name :: below =>
    if cache.contains name then (cache, below)
    else match cells[name]? with
      | none => (cache, below)
      | some (.number x) => (cache.insert name (.number x), below)
      | some (.text s) => (cache.insert name (.text s), below)
      | some (.formula f) =>
        let waiting := f.mentions.filter (isUnsettled cells cache)
        if waiting.isEmpty then
          (cache.insert name (.ofResult (f.value (settledNumber cache))), below)
        else (cache, waiting.reverse ++ name :: below)

/-- Some turns of the loop lead from one cache and stack to others. -/
def Turns (cells : Cells) : Cache × List String → Cache × List String → Prop :=
  ReflTransGen fun s t => s.2 ≠ [] ∧ turn cells s.1 s.2 = t

/-- What is laid aside is computed, or leads to the name by mentions. -/
def AsideLeadsTo (cells : Cells) (cache : Cache) (laidAside : NameSet) (name : String) : Prop :=
  ∀ x ∈ laidAside, x ∈ cache ∨ TransGen (Mentions cells) x name

/-- The names at the top of a stack are settled: the loop and `settle` come down to what lies below
them, all of the names are computed, and so is what was laid aside in between. -/
structure Settles (cells : Cells) (laidAside : NameSet) (cache : Cache) (events : List Event)
    (names below : List String) (laidAside' : NameSet) (cache' : Cache) (events' : List Event) :
    Prop where
  eq : settle cells laidAside cache events (names ++ below) =
    settle cells laidAside' cache' events' below
  turns : Turns cells (cache, names ++ below) (cache', below)
  kept : Kept cells cache'
  mono : ∀ x ∈ cache, x ∈ cache'
  settled : ∀ x ∈ names, isUnsettled cells cache' x = false
  aside : ∀ x ∈ laidAside', x ∈ laidAside ∨ x ∈ cache'

theorem isUnsettled_eq_false_iff : isUnsettled cells cache name = false ↔
    (name ∈ cells → name ∈ cache) := by
  simp [isUnsettled]

variable {laidAside laidAside' laidAside'' : NameSet} {cache'' : Cache}
  {events events' events'' : List Event} {names names' below : List String}

theorem Settles.trans
    (h : Settles cells laidAside cache events names (names' ++ below) laidAside' cache' events')
    (h' : Settles cells laidAside' cache' events' names' below laidAside'' cache'' events'') :
    Settles cells laidAside cache events (names ++ names') below laidAside'' cache'' events'' where
  eq := by rw [List.append_assoc, h.eq, h'.eq]
  turns := by
    rw [List.append_assoc]
    exact ReflTransGen.trans h.turns h'.turns
  kept := h'.kept
  mono x hx := h'.mono x (h.mono x hx)
  settled x hx := by
    rcases List.mem_append.1 hx with hx | hx
    · have hcached := isUnsettled_eq_false_iff.1 (h.settled x hx)
      exact isUnsettled_eq_false_iff.2 fun hcell => h'.mono x (hcached hcell)
    · exact h'.settled x hx
  aside x hx := by
    rcases h'.aside x hx with hx | hx
    · rcases h.aside x hx with hx | hx
      · exact .inl hx
      · exact .inr (h'.mono x hx)
    · exact .inr hx

/-- The value of a settled name is in the cache, unless the name is empty. -/
theorem Kept.hasValue_of_settled (h : Kept cells cache)
    (hname : isUnsettled cells cache name = false) :
    HasValue cells name (cache[name]?.getD .empty) := by
  cases hcached : cache[name]? with
  | some value => exact (h name value hcached).2
  | none =>
    refine .empty (Std.ExtTreeMap.getElem?_eq_none fun hcell => ?_)
    have hmem := isUnsettled_eq_false_iff.1 hname hcell
    rw [Std.ExtTreeMap.mem_iff_isSome_getElem?, hcached] at hmem
    cases hmem

/-- A formula whose mentions are settled has the value that the cache gives it. -/
theorem Kept.hasValue_formula (h : Kept cells cache) {f : Formula}
    (hcell : cells[name]? = some (.formula f))
    (hready : ∀ v ∈ f.mentions, isUnsettled cells cache v = false) :
    HasValue cells name (.ofResult (f.value (settledNumber cache))) := by
  have hnumber : settledNumber cache = fun v => (cache[v]?.getD .empty).number? := by
    funext v
    unfold settledNumber
    cases cache[v]? <;> rfl
  rw [hnumber]
  exact .formula _ hcell fun v hv => h.hasValue_of_settled (hready v hv)

/-- Where a turn drops the top of a stack, so does `settle`. -/
theorem exists_settle_eq (laidAside : NameSet) (events : List Event)
    (hturn : turn cells cache (name :: below) = (cache', below)) :
    ∃ events', settle cells laidAside cache events (name :: below) =
      settle cells laidAside cache' events' below := by
  rw [turn] at hturn
  rw [settle]
  by_cases hcached : cache.contains name = true
  · rw [if_pos hcached] at hturn ⊢
    obtain rfl := congrArg Prod.fst hturn
    exact ⟨events, rfl⟩
  · rw [if_neg hcached] at hturn ⊢
    -- the two functions branch alike; only their accounts of the turn differ
    split
    · next hcell =>
      rw [hcell] at hturn
      obtain rfl := congrArg Prod.fst hturn
      exact ⟨events, rfl⟩
    · next x hcell =>
      rw [hcell] at hturn
      obtain rfl := congrArg Prod.fst hturn
      exact ⟨events, rfl⟩
    · next s hcell =>
      rw [hcell] at hturn
      obtain rfl := congrArg Prod.fst hturn
      exact ⟨events, rfl⟩
    · next f hcell =>
      rw [hcell] at hturn
      dsimp only at hturn ⊢
      split at hturn
      · next hready =>
        obtain rfl := congrArg Prod.fst hturn
        rw [dif_pos (.inl hready)]
        exact ⟨.evaluating name f :: events, rfl⟩
      · -- what waits was put above, so the stack grew
        have hlength := congrArg (fun t => t.2.length) hturn
        simp only [List.length_append, List.length_cons] at hlength
        omega

/-- The top of a stack is settled in one turn. -/
theorem settles_of_turn (h : Kept cells cache') (hmono : ∀ x ∈ cache, x ∈ cache')
    (hname : isUnsettled cells cache' name = false)
    (hturn : turn cells cache (name :: below) = (cache', below)) :
    ∃ events', Settles cells laidAside cache events [name] below laidAside cache' events' := by
  obtain ⟨events', heq⟩ := exists_settle_eq laidAside events hturn
  refine ⟨events', heq, .single ⟨by simp, hturn⟩, h, hmono, fun x hx => ?_, fun x hx => .inl hx⟩
  obtain rfl := List.mem_singleton.1 hx
  exact hname

theorem settles_insert (h : Kept cells cache) {value : CellValue} (hname : name ∈ cells)
    (hvalue : HasValue cells name value)
    (hturn : turn cells cache (name :: below) = (cache.insert name value, below)) :
    ∃ events', Settles cells laidAside cache events [name] below laidAside
      (cache.insert name value) events' :=
  settles_of_turn (h.insert hname hvalue) (fun _ hx => Std.ExtTreeMap.mem_insert.2 (.inr hx))
    (isUnsettled_eq_false_iff.2 fun _ => Std.ExtTreeMap.mem_insert_self) hturn

theorem settle_ready (h : Kept cells cache)
    (hready : name ∉ cache → ∀ f, cells[name]? = some (.formula f) →
      ∀ v ∈ f.mentions, isUnsettled cells cache v = false) :
    ∃ cache' events',
      Settles cells laidAside cache events [name] below laidAside cache' events' := by
  by_cases hcached : cache.contains name = true
  · have hmem := Std.ExtTreeMap.mem_iff_contains.2 hcached
    refine ⟨cache, settles_of_turn h (fun _ hx => hx) (isUnsettled_eq_false_iff.2 fun _ => hmem) ?_⟩
    rw [turn, if_pos hcached]
  · replace hready := hready fun hmem => hcached (Std.ExtTreeMap.mem_iff_contains.1 hmem)
    cases hcell : cells[name]? with
    | none =>
      have hempty : isUnsettled cells cache name = false :=
        isUnsettled_eq_false_iff.2 fun hname => by
          simp [Std.ExtTreeMap.mem_iff_isSome_getElem?, hcell] at hname
      refine ⟨cache, settles_of_turn h (fun _ hx => hx) hempty ?_⟩
      rw [turn, if_neg hcached, hcell]
    | some contents =>
      have hname : name ∈ cells := (Std.ExtTreeMap.getElem?_eq_some_iff.1 hcell).fst
      cases contents with
      | number x =>
        refine ⟨_, settles_insert h hname (.number hcell) ?_⟩
        rw [turn, if_neg hcached, hcell]
      | text s =>
        refine ⟨_, settles_insert h hname (.text hcell) ?_⟩
        rw [turn, if_neg hcached, hcell]
      | formula f =>
        have hempty : (f.mentions.filter (isUnsettled cells cache)).isEmpty = true := by
          simpa using hready f hcell
        refine ⟨_, settles_insert h hname (h.hasValue_formula hcell (hready f hcell)) ?_⟩
        rw [turn, if_neg hcached, hcell]
        simp only [hempty, if_true]

/-- Names at the top of a stack are settled one after the other, if each of them can be. -/
theorem settle_names (h : Kept cells cache) (events : List Event) (below : List String)
    (haside : ∀ x ∈ names, AsideLeadsTo cells cache laidAside x)
    (hone : ∀ x ∈ names, ∀ {laidAside cache} events below, Kept cells cache →
      AsideLeadsTo cells cache laidAside x → ∃ laidAside' cache' events',
        Settles cells laidAside cache events [x] below laidAside' cache' events') :
    ∃ laidAside' cache' events',
      Settles cells laidAside cache events names below laidAside' cache' events' := by
  induction names generalizing laidAside cache events with
  | nil =>
    exact ⟨laidAside, cache, events, rfl, .refl, h, fun _ hx => hx, by simp, fun _ hx => .inl hx⟩
  | cons name rest ih =>
    -- the other names lie below the first one while that is settled
    obtain ⟨laidAside₁, cache₁, events₁, hfirst⟩ :=
      hone name (.head _) events (rest ++ below) h (haside name (.head _))
    have haside₁ : ∀ x ∈ rest, AsideLeadsTo cells cache₁ laidAside₁ x := by
      intro x hx y hy
      rcases hfirst.aside y hy with hy | hy
      · rcases haside x (.tail _ hx) y hy with hy | hy
        · exact .inl (hfirst.mono y hy)
        · exact .inr hy
      · exact .inl hy
    obtain ⟨laidAside₂, cache₂, events₂, hrest⟩ :=
      ih hfirst.kept events₁ haside₁ fun x hx => hone x (.tail _ hx)
    exact ⟨laidAside₂, cache₂, events₂, hfirst.trans hrest⟩

/-- A formula that waits is laid aside until what it waits for and then itself are settled. -/
theorem Settles.descend {f : Formula} (hcached : name ∉ cache)
    (hcell : cells[name]? = some (.formula f)) (hfresh : name ∉ laidAside)
    (hwaiting : f.mentions.filter (isUnsettled cells cache) ≠ [])
    (h : Settles cells (laidAside.insert name) cache events
      ((f.mentions.filter (isUnsettled cells cache)).reverse ++ [name]) below
      laidAside' cache' events') :
    Settles cells laidAside cache events [name] below laidAside' cache' events' := by
  -- the name itself was put back on the stack, so in the end it is computed
  have hname : name ∈ cache' := by
    refine isUnsettled_eq_false_iff.1 (h.settled name (List.mem_append_right _ (.head _))) ?_
    exact (Std.ExtTreeMap.getElem?_eq_some_iff.1 hcell).fst
  rw [Std.ExtTreeMap.mem_iff_contains] at hcached
  rw [Std.ExtTreeSet.mem_iff_contains] at hfresh
  have heq := h.eq
  have hturns := h.turns
  rw [List.append_assoc] at heq hturns
  refine ⟨?_, .head ⟨by simp, ?_⟩ hturns, h.kept, h.mono, fun x hx => ?_, fun x hx => ?_⟩
  · rw [List.singleton_append, settle, if_neg hcached]
    split
    all_goals simp_all
  · rw [List.singleton_append, turn, if_neg hcached, hcell]
    simp [hwaiting]
  · exact h.settled x (List.mem_append_right _ hx)
  · rcases h.aside x hx with hx | hx
    · rcases Std.ExtTreeSet.mem_insert.1 hx with hx | hx
      · obtain rfl := Std.compare_eq_iff_eq.1 hx
        exact .inr hname
      · exact .inl hx
    · exact .inr hx

/-- The top of a stack is settled, where mentions never lead back. -/
theorem settle_top (hacyclic : ∀ a, ¬ TransGen (Mentions cells) a a) (h : Kept cells cache)
    (events : List Event) (below : List String) (haside : AsideLeadsTo cells cache laidAside name) :
    ∃ laidAside' cache' events',
      Settles cells laidAside cache events [name] below laidAside' cache' events' := by
  induction name using (wellFounded_mentions hacyclic).induction generalizing laidAside cache
    events below with
  | _ name ih =>
    by_cases hready : name ∉ cache → ∀ f, cells[name]? = some (.formula f) →
        ∀ v ∈ f.mentions, isUnsettled cells cache v = false
    · obtain ⟨cache', events', hsettles⟩ := settle_ready h hready
      exact ⟨laidAside, cache', events', hsettles⟩
    · push Not at hready
      obtain ⟨hcached, f, hcell, v, hv, hwaits⟩ := hready
      let waiting := f.mentions.filter (isUnsettled cells cache)
      have hmentions : ∀ x ∈ waiting.reverse, Mentions cells name x := fun x hx =>
        ⟨f, hcell, (List.mem_filter.1 (List.mem_reverse.1 hx)).1⟩
      have hwaiting : waiting ≠ [] :=
        List.ne_nil_of_mem (List.mem_filter.2 ⟨hv, by simpa using hwaits⟩)
      -- a name that was laid aside and is not computed would lead to itself
      have hfresh : name ∉ laidAside := fun hmem =>
        (haside name hmem).elim hcached (hacyclic name)
      have hbelow : ∀ x ∈ waiting.reverse, AsideLeadsTo cells cache (laidAside.insert name) x := by
        intro x hx y hy
        rcases Std.ExtTreeSet.mem_insert.1 hy with hy | hy
        · obtain rfl := Std.compare_eq_iff_eq.1 hy
          exact .inr (.single (hmentions x hx))
        · exact (haside y hy).imp_right fun hy => hy.tail (hmentions x hx)
      -- first what waits, which is smaller, and then the name, which waits for nothing any more
      obtain ⟨laidAside₁, cache₁, events₁, hwaited⟩ := settle_names h events
        ([name] ++ below) hbelow fun x hx _ _ events below h haside =>
          ih x (hmentions x hx) h events below haside
      have hready₁ : ∀ g, cells[name]? = some (.formula g) →
          ∀ v ∈ g.mentions, isUnsettled cells cache₁ v = false := by
        intro g hg v hv
        obtain rfl : f = g := by simpa [hcell] using hg
        cases hsettled : isUnsettled cells cache v with
        | true =>
          exact hwaited.settled v (List.mem_reverse.2 (List.mem_filter.2 ⟨hv, hsettled⟩))
        | false =>
          have hold := isUnsettled_eq_false_iff.1 hsettled
          exact isUnsettled_eq_false_iff.2 fun hcell => hwaited.mono v (hold hcell)
      obtain ⟨cache₂, events₂, hname⟩ :=
        settle_ready hwaited.kept fun _ => hready₁
      exact ⟨laidAside₁, cache₂, events₂,
        .descend hcached hcell hfresh hwaiting (hwaited.trans hname)⟩

/-! ### Reads -/

/-- A read keeps computed values right, and answers the value of its cell. -/
theorem valueOf_spec {doc : Document} (hmirrors : doc.Mirrors) (h : Kept doc.cells doc.cache)
    (name : String) :
    HasValue doc.cells name (doc.valueOf name).answer ∧
      Turns doc.cells (doc.cache, [name]) ((doc.valueOf name).document.cache, []) ∧
      Kept doc.cells (doc.valueOf name).document.cache ∧
      (doc.valueOf name).document = { doc with cache := (doc.valueOf name).document.cache } := by
  unfold valueOf
  split
  · next value hcached =>
    have hmem : name ∈ doc.cache := (Std.ExtTreeMap.getElem?_eq_some_iff.1 hcached).fst
    refine ⟨(h name value hcached).2, .single ⟨by simp, ?_⟩, h, rfl⟩
    rw [turn, if_pos (Std.ExtTreeMap.mem_iff_contains.1 hmem)]
  · have haside : AsideLeadsTo doc.cells doc.cache ∅ name := by
      intro x hx
      simp at hx
    obtain ⟨laidAside', cache', events', hsettles⟩ := settle_top hmirrors.acyclic h [] [] haside
    have heq := hsettles.eq
    rw [List.singleton_append, settle] at heq
    rw [heq]
    exact ⟨hsettles.kept.hasValue_of_settled (hsettles.settled name (.head _)), hsettles.turns,
      hsettles.kept, rfl⟩

theorem answer_value {doc : Document} {spelling name : String}
    (hname : doc.resolve spelling = .ok name) :
    (doc.value spelling).answer = .ok (doc.valueOf name).answer := by
  unfold value
  rw [hname]

/-- What a document keeps right over every run: the index and the cache. -/
structure Sound (doc : Document) : Prop where
  mirrors : doc.Mirrors
  kept : Kept doc.cells doc.cache

namespace Sound

variable {doc : Document}

theorem new (config : SheetConfig) : (new config).Sound :=
  ⟨.new config, kept_empty _⟩

theorem edit (h : doc.Sound) (spelling input : String) :
    (doc.edit spelling input).document.Sound := by
  refine ⟨h.mirrors.edit spelling input, ?_⟩
  rcases edit_cases h.mirrors spelling input with hdoc | ⟨name, contents, affected, -, -, hok, hdoc⟩
  · rw [hdoc]
    exact h.kept
  · rw [hdoc]
    exact h.kept.accepted h.mirrors hok

theorem value (h : doc.Sound) (spelling : String) : (doc.value spelling).document.Sound := by
  refine ⟨h.mirrors.value spelling, ?_⟩
  unfold Document.value
  split
  · exact h.kept
  · next name _ =>
    obtain ⟨-, -, hkept, hdoc⟩ := valueOf_spec h.mirrors h.kept name
    dsimp only
    rw [hdoc]
    exact hkept

theorem saved (h : doc.Sound) : doc.saved.Sound :=
  ⟨h.mirrors.saved, h.kept⟩

theorem run (config : SheetConfig) (operations : List Operation) :
    ((Document.new config).run operations).Sound :=
  run_invariant new (fun spelling input h => h.edit spelling input)
    (fun spelling h => h.value spelling) saved config operations

end Sound

/-- After every run, reading a cell answers the one value it has by what the cells hold: the loop
that computes values comes to an end, with the values it has computed kept, and nothing else in
the document changes. -/
theorem value_run {config : SheetConfig} {operations : List Operation} {spelling name : String}
    (hname : ((new config).run operations).resolve spelling = .ok name) :
    let doc := (new config).run operations
    ∃ value, (doc.value spelling).answer = .ok value ∧
      (∀ w, HasValue doc.cells name w ↔ w = value) ∧
      ∃ cache, Turns doc.cells (doc.cache, [name]) (cache, []) ∧
        (doc.value spelling).document = { doc with cache } := by
  intro doc
  have h : doc.Sound := Sound.run config operations
  obtain ⟨hvalue, hturns, -, hdoc⟩ := valueOf_spec h.mirrors h.kept name
  have hread : doc.value spelling =
      { doc.valueOf name with answer := .ok (doc.valueOf name).answer } := by
    unfold value
    rw [hname]
  rw [hread]
  refine ⟨_, rfl, fun w => ⟨fun hw => hw.unique hvalue, ?_⟩, _, hturns, hdoc⟩
  rintro rfl
  exact hvalue

/-- A value that was read is read again after an edit of what it depends on. -/
theorem value_run_after_edit :
    let doc := (new {}).run [.edit "a" "=b*b", .edit "b" "3", .value "a", .edit "b" "text"]
    doc.resolve "a" = .ok "a" ∧ ∃ value, (doc.value "a").answer = .ok value ∧
      (∀ w, HasValue doc.cells "a" w ↔ w = value) ∧
      ∃ cache, Turns doc.cells (doc.cache, ["a"]) (cache, []) ∧
        (doc.value "a").document = { doc with cache } := by
  intro doc
  have hname : doc.resolve "a" = .ok "a" := by
    have hconfig : doc.config = {} := by simp [doc, run, perform, new]
    rw [resolve, hconfig]
    rfl
  exact ⟨hname, value_run hname⟩

end FormulaSheet.Document
