/-
Command lines one after the other.

A command line is read from left to right, and what was read before is kept in the options alone.
So a command line that is followed by another is read like the first and then, from its options on,
like the second.  The only way to miss this is to end on an option that still waits for its value:
it takes the first argument of the second command line, whatever that is.

* **`Options.parseFrom_append`** — reading goes on where the first command line ended;
* **`Options.followedBy`** — what two command lines ask for together;
* **`Options.parseFrom_eq_followedBy`**, **`Options.parseFrom_eq_unexpected`** — what the second one
  adds to the options of the first, and which file is refused if both name one;
* **`Options.parse_append`** — two command lines read as one.
-/
import FormulaSheet.Proofs.Command.Arguments
import Mathlib

namespace FormulaSheet.Command.Options

variable {o o' : Options} {argument : String} {rest xs ys : List String}

/-! ### Reading on -/

/-- What comes of a reading with the given result if more arguments follow: it goes on from the
options, if it gave any, and is over otherwise. -/
def continuedBy (result : Except ArgumentError (Option Options)) (more : List String) :
    Except ArgumentError (Option Options) :=
  match result with
  | .ok (some o) => parseFrom o more
  | stopped => stopped

theorem parseFrom_value {option : ValueOption} {text : String}
    (h : ValueOption.ofSpelling? argument = some option) :
    parseFrom o (argument :: text :: rest) =
      continuedBy ((o.addValue option text).map some) rest := by
  rw [parseFrom, h]
  dsimp only
  cases o.addValue option text <;> rfl

theorem ofSpelling?_of_switch {s : Switch} (h : Switch.ofSpelling? argument = some s) :
    ValueOption.ofSpelling? argument = none := by
  refine Option.eq_none_iff_forall_ne_some.2 fun option hoption => ?_
  rw [(ValueOption.ofSpelling?_eq_some hoption).1] at h
  cases h

theorem ofSpelling?_of_file (h : argument.startsWith "-" = false) :
    ValueOption.ofSpelling? argument = none ∧ Switch.ofSpelling? argument = none := by
  constructor
  · refine Option.eq_none_iff_forall_ne_some.2 fun option hoption => ?_
    rw [(ValueOption.ofSpelling?_eq_some hoption).2] at h
    cases h
  · refine Option.eq_none_iff_forall_ne_some.2 fun s hswitch => ?_
    rw [Switch.startsWith_of_ofSpelling? hswitch] at h
    cases h

theorem parseFrom_switch {s : Switch} (h : Switch.ofSpelling? argument = some s) :
    parseFrom o (argument :: rest) = continuedBy (.ok (o.addSwitch? s)) rest := by
  rw [parseFrom, ofSpelling?_of_switch h, h]
  dsimp only
  cases o.addSwitch? s <;> rfl

theorem parseFrom_file (hoption : ValueOption.ofSpelling? argument = none)
    (hswitch : Switch.ofSpelling? argument = none) :
    parseFrom o (argument :: rest) = continuedBy ((o.addFile argument).map some) rest := by
  rw [parseFrom, hoption, hswitch]
  dsimp only
  cases o.addFile argument <;> rfl

/-- Reading goes on where it ended, unless it ended on an option that waits for its value. -/
theorem parseFrom_append (hvalue : ∀ option, parseFrom o xs ≠ .error (.missingValue option))
    (ys : List String) : parseFrom o (xs ++ ys) = continuedBy (parseFrom o xs) ys := by
  -- by the steps of the first reading; the options it has made so far are all that it keeps
  fun_induction parseFrom o xs with
  | case1 o => rfl
  -- the option at the end would take its value from `ys`
  | case2 o argument option hoption => exact absurd rfl (hvalue argument)
  | case3 o argument option hoption text rest o'' hadd ih =>
    rw [List.cons_append, List.cons_append, parseFrom_value hoption, hadd]
    exact ih hvalue
  | case4 o argument option hoption text rest e hadd =>
    rw [List.cons_append, List.cons_append, parseFrom_value hoption, hadd]
    rfl
  | case5 o argument rest hoption s hswitch o'' hadd ih =>
    rw [List.cons_append, parseFrom_switch hswitch, hadd]
    exact ih hvalue
  | case6 o argument rest hoption s hswitch hadd =>
    rw [List.cons_append, parseFrom_switch hswitch, hadd]
    rfl
  | case7 o argument rest hoption hswitch o'' hadd ih =>
    rw [List.cons_append, parseFrom_file hoption hswitch, hadd]
    exact ih hvalue
  | case8 o argument rest hoption hswitch e hadd =>
    rw [List.cons_append, parseFrom_file hoption hswitch, hadd]
    rfl

/-! ### Two command lines -/

/-- What two command lines ask for together: the edits and queries of both, in order; a switch if
either has it; an output and a settings file of the second, if it names one; and a file. -/
def followedBy (o o' : Options) : Options where
  file := o.file.or o'.file
  edits := o.edits ++ o'.edits
  queries := o.queries ++ o'.queries
  dump := o.dump || o'.dump
  output := o'.output.or o.output
  config := o'.config.or o.config
  noConfig := o.noConfig || o'.noConfig
  verbose := o.verbose || o'.verbose

theorem after_eq_followedBy (o : Options) (items : List Item) :
    o.after items = o.followedBy (after {} items) := by
  simp [after, followedBy]

/-- Arguments add what they ask for by themselves, if that makes no second file. -/
theorem parseFrom_eq_followedBy (hys : parse ys = .ok (some o'))
    (hfile : o.file = none ∨ o'.file = none) :
    parseFrom o ys = .ok (some (o.followedBy o')) := by
  obtain ⟨items, hsaid, hall, hlength, rfl⟩ := parse_eq_ok_iff.1 hys
  refine parseFrom_eq_ok_iff.2 ⟨items, hsaid, hall, ?_, after_eq_followedBy o items⟩
  -- at most one file is named: by the items if there was none before, else before them
  rcases hfile with hfile | hfile
  · rw [hfile]
    exact hlength
  · have hfind : items.findSome? Item.file? = none := by
      simpa [after] using hfile
    have hnone : items.filterMap Item.file? = [] :=
      List.filterMap_eq_nil_iff.2 (List.findSome?_eq_none_iff.1 hfind)
    rw [hnone, List.append_nil]
    cases o.file <;> simp

/-- Where there is a file already, the file that acceptable items name is refused. -/
theorem parseFrom_eq_unexpected {items : List Item} {path : String} (hsaid : Says ys items)
    (hall : ∀ item ∈ items, item.isAcceptable = true) (hfile : o.file.isSome = true)
    (hpath : items.findSome? Item.file? = some path) :
    parseFrom o ys = .error (.unexpected path) := by
  -- items other than files leave the file that is there
  have hkeep : ∀ {o : Options} (item : Item), o.file.isSome = true →
      (o.after [item]).file.isSome = true := by
    intro o item h
    simp only [after, Option.isSome_or, h, Bool.true_or]
  induction hsaid generalizing o with
  | nil => cases hpath
  | @value argument text option rest items hoption _ ih =>
    obtain ⟨hitem, hall⟩ := List.forall_mem_cons.1 hall
    rw [parseFrom_value hoption, addValue_eq_ok_iff.2 ⟨hitem, rfl⟩]
    exact ih hall (hkeep _ hfile) hpath
  | @switch argument s rest items hswitch _ ih =>
    obtain ⟨hitem, hall⟩ := List.forall_mem_cons.1 hall
    rw [parseFrom_switch hswitch, addSwitch?_eq_some_iff.2 ⟨hitem, rfl⟩]
    exact ih hall (hkeep _ hfile) hpath
  | @file argument rest items hdash _ ih =>
    obtain rfl : argument = path := Option.some.inj hpath
    obtain ⟨hoption, hswitch⟩ := ofSpelling?_of_file hdash
    rw [parseFrom_file hoption hswitch, addFile, hdash, hfile]
    rfl

/-- Two command lines that are read as one.  If each of them gives options and at most one names a
file, the whole gives what they ask for together.  If both name a file, that of the second is
refused.  And if reading stopped within the first, at a request for help or at an argument that is
wrong by itself, what follows makes no difference. -/
theorem parse_append (xs ys : List String) :
    (∀ o o', parse xs = .ok (some o) → parse ys = .ok (some o') →
      (o.file = none ∨ o'.file = none → parse (xs ++ ys) = .ok (some (o.followedBy o'))) ∧
      ∀ path path', o.file = some path → o'.file = some path' →
        parse (xs ++ ys) = .error (.unexpected path')) ∧
    (parse xs = .ok none → parse (xs ++ ys) = .ok none) ∧
    ∀ e, parse xs = .error e → (∀ option, e ≠ .missingValue option) →
      parse (xs ++ ys) = .error e := by
  refine ⟨?_, ?_, ?_⟩
  · intro o o' hxs hys
    -- `xs` is read to its end, and `ys` from the options that it left
    have happend : parse (xs ++ ys) = parseFrom o ys := by
      refine (parseFrom_append (fun option h => ?_) ys).trans ?_
      · cases hxs.symm.trans h
      · exact congrArg (continuedBy · ys) hxs
    rw [happend]
    refine ⟨parseFrom_eq_followedBy hys, ?_⟩
    intro path path' hfile hfile'
    obtain ⟨items, hsaid, hall, -, rfl⟩ := parse_eq_ok_iff.1 hys
    refine parseFrom_eq_unexpected hsaid hall (by rw [hfile]; rfl) ?_
    simpa [after] using hfile'
  · intro hxs
    refine (parseFrom_append (fun option h => ?_) ys).trans ?_
    · cases hxs.symm.trans h
    · exact congrArg (continuedBy · ys) hxs
  · intro e hxs he
    refine (parseFrom_append (fun option h => ?_) ys).trans ?_
    · exact he option (Except.error.inj (hxs.symm.trans h))
    · exact congrArg (continuedBy · ys) hxs

/-- A value that looks like an option, and an output that is named twice; two files; and an edit
that is wrong before help is asked for. -/
theorem parse_append_outputs :
    parse (["-o", "--get", "sheet", "-g", "a"] ++ ["-o", "x", "-c", "b"]) =
        .ok (some { file := some "sheet", queries := [.get "a", .command "b"],
                    output := some "x" }) ∧
      parse (["a", "-v"] ++ ["-d", "b"]) = .error (.unexpected "b") ∧
      parse (["-s", "a", "-o"] ++ ["-h"]) = .error (.badEdit "a") := by
  have hfirst : parse ["-o", "--get", "sheet", "-g", "a"] =
      .ok (some { file := some "sheet", queries := [.get "a"], output := some "--get" }) := by
    cbv
  have hsecond : parse ["-o", "x", "-c", "b"] =
      .ok (some { queries := [.command "b"], output := some "x" }) := by
    cbv
  have hfile : parse ["a", "-v"] = .ok (some { file := some "a", verbose := true }) := by
    cbv
  have hfile' : parse ["-d", "b"] = .ok (some { file := some "b", dump := true }) := by
    cbv
  have hedit : parse ["-s", "a", "-o"] = .error (.badEdit "a") := by
    cbv
  refine ⟨?_, ?_, ?_⟩
  · exact ((parse_append _ _).1 _ _ hfirst hsecond).1 (.inr rfl)
  · exact ((parse_append _ _).1 _ _ hfile hfile').2 "a" "b" rfl rfl
  · exact (parse_append _ _).2.2 _ hedit (fun option h => by cases h)

end FormulaSheet.Command.Options
