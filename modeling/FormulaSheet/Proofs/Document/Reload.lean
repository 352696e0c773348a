/-
A saved document is loaded again.

The lines of a file are entered one after the other, in another order than the cells came about, so
on the way the document holds some of the cells only.  None of them is refused: a line is the input
that makes its cell hold the same again, and a cycle among some of the cells would be one among all
of them.

* **`Settings.isIdempotent_of_config?`** — under all settings, normal forms are their own normal
  forms;
* **`Fills.exists_enterAll`** — the lines fill in the sheet;
* **`savedText`** — what a save writes;
* **`exists_load_savedText`** — what a save writes is loaded, as the same document up to the sign of
  zero.
-/
import FormulaSheet.Proofs.Document.Entering
import FormulaSheet.Proofs.Document.Input
import FormulaSheet.Proofs.Document.Settled
import FormulaSheet.Proofs.SheetFile.ReadBack
import FormulaSheet.Settings.Basic
import Mathlib

namespace FormulaSheet

open Relation

/-! ### Normal forms -/

theorem LetterCase.normalize_normalize (letterCase : LetterCase) (name : String) :
    letterCase.normalize (letterCase.normalize name) = letterCase.normalize name := by
  cases letterCase with
  | none => rfl
  | upper =>
    rw [normalize, normalize, String.map_map]
    congr 1
    funext c
    exact Char.toUpper_toUpper_eq_toUpper c
  | lower =>
    rw [normalize, normalize, String.map_map]
    congr 1
    funext c
    exact Char.toLower_toLower_eq_toLower c

/-- Whatever the settings say, normal forms are their own normal forms. -/
theorem Settings.isIdempotent_of_config? {settings : Settings} {config : SheetConfig}
    (h : settings.config? = some config) : config.rules.IsIdempotent := by
  obtain ⟨rules, hrules, rfl⟩ := Option.map_eq_some_iff.1 h
  unfold rules? at hrules
  dsimp only at hrules
  split at hrules
  · obtain rfl := Option.some.inj hrules
    exact LetterCase.normalize_normalize _
  · obtain ⟨pattern, -, rfl⟩ := Option.map_eq_some_iff.1 hrules
    exact LetterCase.normalize_normalize _

namespace Document

/-! ### Filling in a sheet -/

section Filling

variable {doc : Document} {target : Cells} {saved : List SavedCell}

/-- What a document does not hold of a sheet is what the saved cells still enter. -/
structure Fills (doc : Document) (target : Cells) (saved : List SavedCell) : Prop where
  entered : ∀ cell ∈ saved, doc.resolve cell.name = .ok cell.name ∧
    ∃ c, classify doc.config cell.input = .ok (some c) ∧ target[cell.name]? = some c
  missing : ∀ name : String, doc.cells[name]? = target[name]? ∨
    doc.cells[name]? = none ∧ ∃ cell ∈ saved, cell.name = name

namespace Fills

theorem exists_means (h : doc.Fills target saved) {cell : SavedCell} (hcell : cell ∈ saved) :
    ∃ c, Means doc.config cell.entry cell.name (some c) ∧ target[cell.name]? = some c := by
  obtain ⟨hname, c, hc, htarget⟩ := h.entered cell hcell
  exact ⟨c, ⟨resolve_eq_ok_iff.1 hname, hc⟩, htarget⟩

theorem mentions (h : doc.Fills target saved) {a b : String} (hab : Mentions doc.cells a b) :
    Mentions target a b := by
  obtain ⟨f, hf, hb⟩ := hab
  rcases h.missing a with hsame | ⟨hnone, -⟩
  · exact ⟨f, hsame ▸ hf, hb⟩
  · rw [hnone] at hf
    cases hf

/-- Entering the saved cells fills in the sheet. -/
theorem exists_enterAll (h : doc.Fills target saved) (hmirrors : doc.Mirrors)
    (hacyclic : ∀ a, ¬ TransGen (Mentions target) a a) :
    ∃ doc', (doc.enterAll saved).answer = .ok doc' ∧ doc'.config = doc.config ∧
      doc'.cells = target := by
  obtain ⟨doc', hdoc'⟩ := Document.exists_enterAll hmirrors hacyclic (fun a b => h.mentions)
    fun cell hcell => by
      obtain ⟨c, hmeans, htarget⟩ := h.exists_means hcell
      refine ⟨cell.name, some c, hmeans, fun b hb => mentions_iff.2 ?_⟩
      rwa [htarget]
  have hconfig : doc'.config = doc.config :=
    enterAll_invariant (P := fun doc' => doc'.config = doc.config)
      (fun spelling input hdoc => (config_edit _ spelling input).trans hdoc) rfl hdoc'
  -- a cell that no line means was there from the start, by `missing`
  refine ⟨doc', hdoc', hconfig, Std.ExtTreeMap.ext_getElem? fun name => ?_⟩
  rcases (enterAll_cells hmirrors hdoc').2 name with ⟨cell, hcell, hlast⟩ | ⟨hnone, hsame⟩
  · obtain ⟨c, hmeans, htarget⟩ := h.exists_means hcell
    obtain ⟨rfl, hc⟩ := hlast.unique hmeans
    rw [hc, htarget]
  · rcases h.missing name with htarget | ⟨-, cell, hcell, rfl⟩
    · rw [hsame, htarget]
    · obtain ⟨c, hmeans, -⟩ := h.exists_means hcell
      exact absurd hmeans.name (hnone cell hcell)

end Fills

end Filling

/-! ### What a save writes -/

/-- Cells with no sign at zero. -/
def withoutNegativeZeros (cells : Cells) : Cells :=
  cells.map fun _ c => c.withoutNegativeZero

theorem getElem?_withoutNegativeZeros (cells : Cells) (name : String) :
    (withoutNegativeZeros cells)[name]? = cells[name]?.map Contents.withoutNegativeZero :=
  Std.ExtTreeMap.getElem?_map

theorem mentions_withoutNegativeZeros (cells : Cells) (a b : String) :
    Mentions (withoutNegativeZeros cells) a b ↔ Mentions cells a b := by
  rw [mentions_iff, mentions_iff, getElem?_withoutNegativeZeros]
  match cells[a]? with
  | none => rfl
  | some (.number x) => rfl
  | some (.text s) => rfl
  | some (.formula f) => rfl

/-- The cells of a document in listing order. -/
def listed (doc : Document) : List (String × Contents) :=
  doc.names.filterMap fun name => doc.cells[name]?.map fun c => (name, c)

theorem mem_names_iff {doc : Document} {name : String} :
    name ∈ doc.names ↔ ∃ c, doc.cells[name]? = some c := by
  rw [names, sortNames, List.mem_mergeSort, Std.ExtTreeMap.mem_keys,
    Std.ExtTreeMap.mem_iff_isSome_getElem?, Option.isSome_iff_exists]

theorem mem_listed_iff {doc : Document} {name : String} {c : Contents} :
    (name, c) ∈ doc.listed ↔ doc.cells[name]? = some c := by
  simp only [listed, List.mem_filterMap, mem_names_iff, Option.map_eq_some_iff, Prod.mk.injEq]
  constructor
  · rintro ⟨a, -, d, hd, rfl, rfl⟩
    exact hd
  · intro h
    exact ⟨name, ⟨c, h⟩, c, h, rfl, rfl⟩

theorem names_congr {α : Type} {g : Contents → α} {doc doc' : Document}
    (hcells : ∀ name : String, doc'.cells[name]?.map g = doc.cells[name]?.map g) :
    doc'.names = doc.names := by
  -- the names are the keys, and keys do not depend on what is stored under them
  have hmapped : doc'.cells.map (fun _ c => g c) = doc.cells.map fun _ c => g c :=
    Std.ExtTreeMap.ext_getElem? fun name => by
      rw [Std.ExtTreeMap.getElem?_map, Std.ExtTreeMap.getElem?_map, hcells]
  rw [names, names, ← Std.ExtTreeMap.keys_map (f := fun _ c => g c), hmapped,
    Std.ExtTreeMap.keys_map]

/-- Documents with the same configuration whose cells are written alike are saved as the same
text. -/
theorem fileText_congr {doc doc' : Document} (hconfig : doc'.config = doc.config)
    (hcells : ∀ name : String, doc'.cells[name]?.map SheetFile.valueText =
      doc.cells[name]?.map SheetFile.valueText) : doc'.fileText = doc.fileText := by
  have hlisted : doc'.listed.map (fun p => p.1 ++ ": " ++ SheetFile.valueText p.2) =
      doc.listed.map fun p => p.1 ++ ": " ++ SheetFile.valueText p.2 := by
    -- a line shows a name and the text of what is held, and nothing else of it
    have hlines : ∀ (cells : Cells) (names : List String),
        (names.filterMap fun name => cells[name]?.map fun c => (name, c)).map
            (fun p => p.1 ++ ": " ++ SheetFile.valueText p.2) =
          names.filterMap fun name => (cells[name]?.map SheetFile.valueText).map
            fun value => name ++ ": " ++ value := by
      intro cells names
      rw [List.map_filterMap]
      simp only [Option.map_map, Function.comp_def]
    rw [listed, listed, hlines, hlines, names_congr hcells]
    simp only [hcells]
  show SheetFile.sheetText doc'.version doc'.listed = SheetFile.sheetText doc.version doc.listed
  rw [version, version, hconfig, SheetFile.sheetText, SheetFile.sheetText]
  rw [hlisted]

theorem names_eq {doc doc' : Document} (hcells : doc'.cells = withoutNegativeZeros doc.cells) :
    doc'.names = doc.names := by
  rw [names, names, hcells, withoutNegativeZeros, Std.ExtTreeMap.keys_map]

/-- A document with the same configuration and the same cells up to the sign of zero is saved as
the same text. -/
theorem fileText_eq {doc doc' : Document} (hconfig : doc'.config = doc.config)
    (hcells : doc'.cells = withoutNegativeZeros doc.cells) : doc'.fileText = doc.fileText := by
  refine fileText_congr hconfig fun name => ?_
  rw [hcells, getElem?_withoutNegativeZeros, Option.map_map]
  refine congrArg (Option.map · _) (funext fun c => ?_)
  exact SheetFile.valueText_withoutNegativeZero c

/-- A writer that keeps what is written. -/
def buffer : Writer (StateM String) where
  write text := do
    modify (· ++ text)
    return .ok ()
  flush := return .ok ()

/-- What a save writes. -/
def savedText (doc : Document) : String :=
  ((doc.saveTo buffer).run "").2

theorem savedText_eq (doc : Document) : doc.savedText = doc.fileText := by
  show "" ++ doc.fileText = doc.fileText
  simp

theorem decodeText_toUTF8 (text : String) : decodeText text.toUTF8 = .ok text := by
  have hvalid : text.toUTF8.IsValidUTF8 := text.isValidUTF8
  rw [decodeText, String.fromUTF8?, dif_pos hvalid]
  rfl

/-! ### What a load makes of it -/

section Loading

variable {doc doc' : Document}

/-- The lines that a document is saved as fill in its cells. -/
theorem fills_savedCells (h : doc.Entered) (hidem : doc.config.rules.IsIdempotent) (number : Nat) :
    (new doc.config).Fills (withoutNegativeZeros doc.cells)
      (SheetFile.savedCells number doc.listed) where
  entered cell hcell := by
    obtain ⟨c, hc, hinput⟩ := SheetFile.exists_of_mem_savedCells hcell
    have hheld := mem_listed_iff.1 hc
    refine ⟨(h.resolve_name hidem hheld).1, c.withoutNegativeZero, ?_, ?_⟩
    · rw [hinput]
      exact Contents.classify_input (h.isCanonical hidem hheld)
    · rw [getElem?_withoutNegativeZeros, hheld, Option.map_some]
  missing name := by
    have hempty : (new doc.config).cells[name]? = none := Std.ExtTreeMap.getElem?_empty
    rw [hempty, getElem?_withoutNegativeZeros]
    cases hcell : doc.cells[name]? with
    | none => exact .inl rfl
    | some c =>
      -- the new document does not hold the cell yet, but one of the lines enters it
      have hname : name ∈ (SheetFile.savedCells number doc.listed).map (·.name) := by
        rw [SheetFile.map_name_savedCells]
        exact List.mem_map.2 ⟨(name, c), mem_listed_iff.2 hcell, rfl⟩
      exact .inr ⟨rfl, List.mem_map.1 hname⟩

/-- The text that a document is saved as is loaded, as the same cells up to the sign of zero. -/
theorem exists_load_fileText (h : doc.Entered) (hmirrors : doc.Mirrors)
    (hidem : doc.config.rules.IsIdempotent) :
    ∃ doc', (load doc.config doc.fileText).answer = .ok doc' ∧ doc'.config = doc.config ∧
      doc'.cells = withoutNegativeZeros doc.cells ∧ doc'.modified = false := by
  have hread : SavedSheet.read doc.fileText =
      .ok ⟨doc.version, SheetFile.savedCells 3 doc.listed⟩ :=
    SheetFile.read_sheetText
      (fun p hp => (h.resolve_name hidem (mem_listed_iff.1 hp)).2)
      (fun p hp => (h.isCanonical hidem (mem_listed_iff.1 hp)).isWritable) doc.version
  -- the sheet to be filled in mentions what the document mentions, so it has no cycles
  have hacyclic : ∀ a, ¬ TransGen (Mentions (withoutNegativeZeros doc.cells)) a a := fun a ha =>
    hmirrors.acyclic a
      (TransGen.mono (fun x y hxy => (mentions_withoutNegativeZeros _ x y).1 hxy) _ _ ha)
  obtain ⟨filled, hfilled, hconfig, hcells⟩ :=
    (fills_savedCells h hidem 3).exists_enterAll (Mirrors.new doc.config) hacyclic
  refine ⟨filled.saved, ?_, hconfig, hcells, rfl⟩
  have hversion : doc.version = doc.config.version := rfl
  rw [load, hread]
  dsimp only
  rw [if_pos hversion, hfilled]
  rfl

theorem beq_withoutNegativeZeros (h : doc.Entered) (hidem : doc.config.rules.IsIdempotent)
    (name : String) : ((withoutNegativeZeros doc.cells)[name]? == doc.cells[name]?) = true := by
  rw [getElem?_withoutNegativeZeros]
  cases hcell : doc.cells[name]? with
  | none => rfl
  | some c => exact Contents.withoutNegativeZero_beq (h.isCanonical hidem hcell)

/-- Where no cell holds `-0` there is no sign at zero to lose. -/
theorem withoutNegativeZeros_eq_self (h : doc.Entered) (hidem : doc.config.rules.IsIdempotent)
    (hzero : ∀ (name : String) (x : Float), doc.cells[name]? = some (.number x) → x ≠ -0) :
    withoutNegativeZeros doc.cells = doc.cells := by
  refine Std.ExtTreeMap.ext_getElem? fun name => ?_
  rw [getElem?_withoutNegativeZeros]
  cases hcell : doc.cells[name]? with
  | none => rfl
  | some c =>
    have hcanonical := h.isCanonical hidem hcell
    cases c with
    | number x =>
      rw [Option.map_some, Contents.withoutNegativeZero,
        Number.withoutNegativeZero_eq_self hcanonical (hzero name x hcell)]
    | _ => rfl

/-- The same cells have the same values, whatever was computed before. -/
theorem answer_value_eq (h : doc.Sound) (h' : doc'.Sound) (hconfig : doc'.config = doc.config)
    (hcells : doc'.cells = doc.cells) (spelling : String) :
    (doc'.value spelling).answer = (doc.value spelling).answer := by
  unfold value
  rw [resolve, resolve, hconfig]
  split
  · rfl
  · next name _ =>
    -- both answers are the one value that the cells give the name
    obtain ⟨hvalue, -⟩ := valueOf_spec h.mirrors h.kept name
    obtain ⟨hvalue', -⟩ := valueOf_spec h'.mirrors h'.kept name
    rw [hcells] at hvalue'
    exact congrArg Except.ok (hvalue'.unique hvalue)

end Loading

/-- What a document writes when it is saved, at any time of any run, is loaded by its own
configuration.  What is loaded has the same names in the same order, equal contents, the same
mentions, no changes, and the same text again; if no cell holds `-0` it has the same values. -/
theorem exists_load_savedText {config : SheetConfig} {operations : List Operation}
    (hidem : ((new config).run operations).config.rules.IsIdempotent) :
    let doc := (new config).run operations
    ∃ doc', (loadBytes doc.config doc.savedText.toUTF8).answer = .ok doc' ∧
      doc'.names = doc.names ∧
      (∀ name : String, (doc'.cells[name]? == doc.cells[name]?) = true) ∧
      doc'.mentions = doc.mentions ∧
      doc'.modified = false ∧
      doc'.savedText = doc.savedText ∧
      ((∀ (name : String) (x : Float), doc.cells[name]? = some (.number x) → x ≠ -0) →
        ∀ spelling, (doc'.value spelling).answer = (doc.value spelling).answer) := by
  intro doc
  have hentered : doc.Entered := Entered.run config operations
  have hsound : doc.Sound := Sound.run config operations
  obtain ⟨doc', hload, hconfig, hcells, hmodified⟩ :=
    exists_load_fileText hentered hsound.mirrors hidem
  have hsound' : doc'.Sound := load_invariant Sound.new
    (fun spelling input h => h.edit spelling input) (fun h => h.saved) hload
  refine ⟨doc', ?_, names_eq hcells, fun name => ?_, ?_, hmodified, ?_, fun hzero => ?_⟩
  · rw [loadBytes, savedText_eq, decodeText_toUTF8]
    exact hload
  · rw [hcells]
    exact beq_withoutNegativeZeros hentered hidem name
  · refine hsound'.mirrors.mentions_eq hsound.mirrors fun a b => ?_
    rw [hcells, mentions_withoutNegativeZeros]
  · rw [savedText_eq, savedText_eq, fileText_eq hconfig hcells]
  · rw [withoutNegativeZeros_eq_self hentered hidem hzero] at hcells
    exact answer_value_eq hsound hsound' hconfig hcells

/-- A text with quotes, a numeral and a line feed in it is loaded as it was saved. -/
theorem exists_load_savedText_note :
    let doc := (new { rules := { normalize := LetterCase.upper.normalize } }).run
      [.edit "note" "say \"-0\"\n"]
    doc.config.rules.IsIdempotent ∧
      ∃ doc', (loadBytes doc.config doc.savedText.toUTF8).answer = .ok doc' ∧
        doc'.names = doc.names ∧ doc'.savedText = doc.savedText ∧
        ∀ spelling, (doc'.value spelling).answer = (doc.value spelling).answer := by
  intro doc
  have hidem : doc.config.rules.IsIdempotent := by
    have hconfig : doc.config = { rules := { normalize := LetterCase.upper.normalize } } := by
      simp [doc, run, perform, new]
    rw [hconfig]
    exact LetterCase.normalize_normalize .upper
  have hzero : ∀ (name : String) (x : Float), doc.cells[name]? = some (.number x) → x ≠ -0 := by
    intro name x hx
    rcases edit_cases (Mirrors.new { rules := { normalize := LetterCase.upper.normalize } }) "note"
      "say \"-0\"\n" with hdoc | ⟨entered, contents, affected, -, hcontents, -, hdoc⟩
    · have hempty : doc.cells = ∅ := congrArg Document.cells hdoc
      simp [hempty] at hx
    · obtain rfl : some (.text "say \"-0\"\n") = contents := Except.ok.inj hcontents
      have hcells : doc.cells = cellsWith ∅ entered (some (.text "say \"-0\"\n")) :=
        congrArg Document.cells hdoc
      rw [hcells, getElem?_cellsWith] at hx
      split at hx <;> simp at hx
  obtain ⟨doc', hload, hnames, -, -, -, htext, hvalue⟩ := exists_load_savedText hidem
  exact ⟨hidem, doc', hload, hnames, htext, hvalue hzero⟩

end Document

end FormulaSheet
