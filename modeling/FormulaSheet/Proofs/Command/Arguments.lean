/-
What a command line says.

An argument that is an option with a value takes the argument after it, whatever that looks like;
so a list of arguments can be read in one way only, from left to right.  What it asks for does not
depend on where edits, queries and other options stand among each other.

* **`Says`** — arguments as items: options with their values, switches, and files;
* **`Options.after`** — what items ask for, besides what was asked for before;
* **`Asks`**, **`Options.parse_eq_ok_iff`** — the options that arguments are read as.
-/
import FormulaSheet.Command.Arguments

namespace FormulaSheet.Command

/-! ### Items -/

/-- One thing that a command line says. -/
inductive Item where
  | value (option : ValueOption) (text : String)
  | switch (s : Switch)
  | file (path : String)
deriving DecidableEq

namespace Item

/-- The edit that an item asks for. -/
@[simp] def edit? : Item → Option (String × String)
  | value .set text => splitEdit? text
  | _ => none

/-- The query that an item asks for. -/
@[simp] def query? : Item → Option Query
  | value .get name => some (.get name)
  | value .command text => some (.command text)
  | _ => none

/-- The file that an item names for the output. -/
@[simp] def output? : Item → Option String
  | value .output path => some path
  | _ => none

/-- The file that an item names for the settings. -/
@[simp] def config? : Item → Option String
  | value .config path => some path
  | _ => none

/-- The file that an item names for the sheet. -/
@[simp] def file? : Item → Option String
  | file path => some path
  | _ => none

/-- Whether a command line with an item can ask for something: a request for help ends it, and an
edit has a name and a content. -/
@[simp] def isAcceptable : Item → Bool
  | value .set text => (splitEdit? text).isSome
  | switch .help => false
  | _ => true

end Item

/-- What arguments say, from left to right. -/
inductive Says : List String → List Item → Prop
  | nil : Says [] []
  | value {argument text : String} {option : ValueOption} {rest : List String} {items : List Item} :
      ValueOption.ofSpelling? argument = some option → Says rest items →
      Says (argument :: text :: rest) (.value option text :: items)
  | switch {argument : String} {s : Switch} {rest : List String} {items : List Item} :
      Switch.ofSpelling? argument = some s → Says rest items →
      Says (argument :: rest) (.switch s :: items)
  | file {argument : String} {rest : List String} {items : List Item} :
      argument.startsWith "-" = false → Says rest items →
      Says (argument :: rest) (.file argument :: items)

/-- An option with a value is no switch, and no file. -/
theorem ValueOption.ofSpelling?_eq_some {argument : String} {option : ValueOption}
    (h : ofSpelling? argument = some option) :
    Switch.ofSpelling? argument = none ∧ argument.startsWith "-" = true := by
  unfold ofSpelling? at h
  split at h <;> cases h <;> exact ⟨rfl, by simp⟩

theorem Switch.startsWith_of_ofSpelling? {argument : String} {s : Switch}
    (h : ofSpelling? argument = some s) : argument.startsWith "-" = true := by
  unfold ofSpelling? at h
  split at h <;> cases h <;> simp

section

variable {argument : String} {arguments : List String} {items : List Item}

theorem says_value_iff {option : ValueOption} (h : ValueOption.ofSpelling? argument = some option) :
    Says (argument :: arguments) items ↔ ∃ text rest items', arguments = text :: rest ∧
      items = .value option text :: items' ∧ Says rest items' := by
  obtain ⟨hswitch, hdash⟩ := ValueOption.ofSpelling?_eq_some h
  constructor
  · intro hsaid
    -- an option with a value is no switch and starts with a hyphen, so one rule is left
    cases hsaid with
    | value hoption hrest =>
      obtain rfl := Option.some.inj (h.symm.trans hoption)
      exact ⟨_, _, _, rfl, rfl, hrest⟩
    | switch hs _ => simp [hswitch] at hs
    | file hfile _ => simp [hdash] at hfile
  · rintro ⟨text, rest, items', rfl, rfl, hrest⟩
    exact .value h hrest

theorem says_switch_iff {s : Switch} (h : Switch.ofSpelling? argument = some s) :
    Says (argument :: arguments) items ↔ ∃ items', items = .switch s :: items' ∧
      Says arguments items' := by
  have hdash := Switch.startsWith_of_ofSpelling? h
  constructor
  · intro hsaid
    cases hsaid with
    | value hoption _ => simp [(ValueOption.ofSpelling?_eq_some hoption).1] at h
    | switch hs hrest =>
      obtain rfl := Option.some.inj (h.symm.trans hs)
      exact ⟨_, rfl, hrest⟩
    | file hfile _ => simp [hdash] at hfile
  · rintro ⟨items', rfl, hrest⟩
    exact .switch h hrest

theorem says_file_iff (hoption : ValueOption.ofSpelling? argument = none)
    (hswitch : Switch.ofSpelling? argument = none) :
    Says (argument :: arguments) items ↔ argument.startsWith "-" = false ∧
      ∃ items', items = .file argument :: items' ∧ Says arguments items' := by
  constructor
  · intro hsaid
    cases hsaid with
    | value hoption' _ => simp [hoption] at hoption'
    | switch hs _ => simp [hswitch] at hs
    | file hfile hrest => exact ⟨hfile, _, rfl, hrest⟩
  · rintro ⟨hfile, items', rfl, hrest⟩
    exact .file hfile hrest

end

/-! ### Options -/

namespace Options

/-- What items ask for, besides what was asked for before: edits and queries in their order, the
last output, the last settings file, and a file. -/
def after (o : Options) (items : List Item) : Options where
  file := o.file.or (items.findSome? Item.file?)
  edits := o.edits ++ items.filterMap Item.edit?
  queries := o.queries ++ items.filterMap Item.query?
  dump := o.dump || items.contains (.switch .dump)
  output := (items.filterMap Item.output?).getLast?.or o.output
  config := (items.filterMap Item.config?).getLast?.or o.config
  noConfig := o.noConfig || items.contains (.switch .noConfig)
  verbose := o.verbose || items.contains (.switch .verbose)

theorem after_nil (o : Options) : o.after [] = o := by
  simp [after]

theorem after_append (o : Options) (items items' : List Item) :
    o.after (items ++ items') = (o.after items).after items' := by
  simp only [after, List.findSome?_append, List.filterMap_append, List.contains_append,
    List.getLast?_append, List.append_assoc, Option.or_assoc, Bool.or_assoc]

theorem after_cons (o : Options) (item : Item) (items : List Item) :
    o.after (item :: items) = (o.after [item]).after items :=
  o.after_append [item] items

variable {o o' : Options} {text path : String}

/-- An option with a value adds what it asks for. -/
theorem addValue_eq_ok_iff {option : ValueOption} : o.addValue option text = .ok o' ↔
    (Item.value option text).isAcceptable = true ∧ o.after [.value option text] = o' := by
  cases option with
  | set =>
    cases hedit : splitEdit? text with
    | none => simp [addValue, hedit]
    | some edit =>
      have hafter : o.after [.value .set text] = { o with edits := o.edits ++ [edit] } := by
        simp [after, List.filterMap_cons, hedit]
      simp [addValue, hedit, hafter]
  | _ => simp [addValue, after, List.filterMap_cons]

theorem addSwitch?_eq_some_iff {s : Switch} : o.addSwitch? s = some o' ↔
    (Item.switch s).isAcceptable = true ∧ o.after [.switch s] = o' := by
  cases s <;> simp [addSwitch?, after, List.filterMap_cons]

theorem addFile_eq_ok_iff : o.addFile path = .ok o' ↔
    path.startsWith "-" = false ∧ o.file = none ∧ o.after [.file path] = o' := by
  unfold addFile
  split
  · next hdash => simp [hdash]
  · next hdash =>
    rw [Bool.not_eq_true] at hdash
    -- a second file is refused, whatever it is
    cases hfile : o.file with
    | some path => simp
    | none => simp [hdash, hfile, after, List.filterMap_cons]

/-- Arguments ask for options besides what was asked for before: all they say is acceptable, and
there is one file at most. -/
def AsksAfter (o : Options) (arguments : List String) (o' : Options) : Prop :=
  ∃ items, Says arguments items ∧ (∀ item ∈ items, item.isAcceptable = true) ∧
    (o.file.toList ++ items.filterMap Item.file?).length ≤ 1 ∧ o.after items = o'

theorem length_files_le_one_iff (o : Options) (item : Item) (items : List Item) :
    (o.file.toList ++ (item :: items).filterMap Item.file?).length ≤ 1 ↔
      (o.file = none ∨ item.file? = none) ∧
        ((o.after [item]).file.toList ++ items.filterMap Item.file?).length ≤ 1 := by
  have hfile : (o.after [item]).file = o.file.or item.file? := by
    simp [after]
  rw [hfile, List.filterMap_cons]
  cases o.file <;> cases item.file? <;> simp

/-- One item is read, and then what follows it. -/
theorem exists_item_cons_iff (item : Item) (rest : List String) :
    (∃ items, (∃ items', items = item :: items' ∧ Says rest items') ∧
      (∀ i ∈ items, i.isAcceptable = true) ∧
      (o.file.toList ++ items.filterMap Item.file?).length ≤ 1 ∧ o.after items = o') ↔
    (item.isAcceptable = true ∧ (o.file = none ∨ item.file? = none)) ∧
      (o.after [item]).AsksAfter rest o' := by
  constructor
  · rintro ⟨_, ⟨items, rfl, hsaid⟩, hall, hlength, rfl⟩
    obtain ⟨hitem, hrest⟩ := List.forall_mem_cons.1 hall
    obtain ⟨hfile, hlength⟩ := (length_files_le_one_iff o item items).1 hlength
    exact ⟨⟨hitem, hfile⟩, items, hsaid, hrest, hlength, (after_cons o item items).symm⟩
  · rintro ⟨⟨hitem, hfile⟩, items, hsaid, hrest, hlength, rfl⟩
    exact ⟨_, ⟨items, rfl, hsaid⟩, List.forall_mem_cons.2 ⟨hitem, hrest⟩,
      (length_files_le_one_iff o item items).2 ⟨hfile, hlength⟩, after_cons o item items⟩

section

variable {argument : String} {rest : List String}

theorem asksAfter_nil : o.AsksAfter [] o' ↔ o = o' := by
  constructor
  · rintro ⟨items, hsaid, -, -, rfl⟩
    cases hsaid with
    | nil => exact o.after_nil.symm
  · rintro rfl
    refine ⟨[], .nil, by simp, ?_, o.after_nil⟩
    cases o.file <;> simp

theorem asksAfter_value {option : ValueOption}
    (h : ValueOption.ofSpelling? argument = some option) :
    o.AsksAfter (argument :: text :: rest) o' ↔
      ∃ o'', o.addValue option text = .ok o'' ∧ o''.AsksAfter rest o' := by
  simp only [addValue_eq_ok_iff, and_assoc, exists_and_left, exists_eq_left']
  -- the argument after the option is its value, so there is no choice to be made
  have hsaid : ∀ items, Says (argument :: text :: rest) items ↔
      ∃ items', items = .value option text :: items' ∧ Says rest items' := by
    intro items
    rw [says_value_iff h]
    constructor
    · rintro ⟨_, _, items', heq, hitems, hrest⟩
      obtain ⟨rfl, rfl⟩ := List.cons.inj heq
      exact ⟨items', hitems, hrest⟩
    · rintro ⟨items', hitems, hrest⟩
      exact ⟨text, rest, items', rfl, hitems, hrest⟩
  simp only [AsksAfter, hsaid]
  exact (exists_item_cons_iff _ rest).trans (by simp [AsksAfter])

theorem asksAfter_switch {s : Switch} (h : Switch.ofSpelling? argument = some s) :
    o.AsksAfter (argument :: rest) o' ↔
      ∃ o'', o.addSwitch? s = some o'' ∧ o''.AsksAfter rest o' := by
  simp only [addSwitch?_eq_some_iff, and_assoc, exists_and_left, exists_eq_left']
  simp only [AsksAfter, says_switch_iff h]
  exact (exists_item_cons_iff _ rest).trans (by simp [AsksAfter])

theorem asksAfter_file (hoption : ValueOption.ofSpelling? argument = none)
    (hswitch : Switch.ofSpelling? argument = none) :
    o.AsksAfter (argument :: rest) o' ↔
      ∃ o'', o.addFile argument = .ok o'' ∧ o''.AsksAfter rest o' := by
  simp only [addFile_eq_ok_iff, and_assoc, exists_and_left, exists_eq_left']
  simp only [AsksAfter, says_file_iff hoption hswitch, and_assoc, exists_and_left]
  refine and_congr_right fun _ => ?_
  exact (exists_item_cons_iff _ rest).trans (by simp [AsksAfter])

end

/-- Arguments are read as the options that they ask for. -/
theorem parseFrom_eq_ok_iff {arguments : List String} :
    parseFrom o arguments = .ok (some o') ↔ o.AsksAfter arguments o' := by
  -- one step of the reader is one of the equivalences above
  fun_induction parseFrom o arguments with
  | case1 o => simp [asksAfter_nil]
  | case2 o argument option hoption =>
    simp [AsksAfter, says_value_iff hoption]
  | case3 o argument option hoption text rest o'' hadd ih =>
    simp [asksAfter_value hoption, hadd, ih]
  | case4 o argument option hoption text rest e hadd => simp [asksAfter_value hoption, hadd]
  | case5 o argument rest hoption s hswitch o'' hadd ih => simp [asksAfter_switch hswitch, hadd, ih]
  | case6 o argument rest hoption s hswitch hadd => simp [asksAfter_switch hswitch, hadd]
  | case7 o argument rest hoption hswitch o'' hadd ih =>
    simp [asksAfter_file hoption hswitch, hadd, ih]
  | case8 o argument rest hoption hswitch e hadd => simp [asksAfter_file hoption hswitch, hadd]

end Options

/-- The options that arguments ask for: all they say is acceptable, and they name one file at
most. -/
def Asks (arguments : List String) (o : Options) : Prop :=
  ∃ items, Says arguments items ∧ (∀ item ∈ items, item.isAcceptable = true) ∧
    (items.filterMap Item.file?).length ≤ 1 ∧ Options.after {} items = o

theorem Options.parse_eq_ok_iff {arguments : List String} {o : Options} :
    parse arguments = .ok (some o) ↔ Asks arguments o :=
  parseFrom_eq_ok_iff

/-- Edits may stand on either side of queries, and a value may look like an option. -/
example : Asks ["-g", "b", "-s", " a =2", "-o", "x", "--set", "b==a*3", "-o", "--get"]
    { edits := [("a", "2"), ("b", "=a*3")], queries := [.get "b"], output := some "--get" } :=
  Options.parse_eq_ok_iff.1 rfl

end FormulaSheet.Command
