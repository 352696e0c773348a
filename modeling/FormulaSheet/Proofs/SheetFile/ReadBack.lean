/-
A sheet file is read back.

The text of a version and cells is cut into the lines that it was made of, and each line says again
what it was written for: the version, or a cell with the input that makes it.

* **`splitLines_lines`** — lines are cut where they were joined;
* **`read_cellLine`** — the line of a cell gives the name and the input of its contents;
* **`read_sheetText`** — a sheet file gives its version and its cells, line by line.

A line starts with a name and ends with a visible character, so no blanks are cut from it, and its
first colon is the one after the name.  Nothing is asked of the names but that they are variable
names, and of the contents but that they can be written at all: a text may be a numeral, a comment
or nothing, and the same name may come twice.
-/
import FormulaSheet.Proofs.Document.Input
import FormulaSheet.Proofs.SheetFile.Quoted
import FormulaSheet.SheetFile.Basic

namespace FormulaSheet

open Text (Stops)

namespace Contents

/-- Contents that can be written: numbers that are finite, all texts, and formulas that were parsed,
under whatever rules. -/
def IsWritable : Contents → Prop
  | number x => x.isFinite = true
  | text _ => True
  | formula f => ∃ rules text, Formula.parse rules text = .ok f

theorem IsCanonical.isWritable {config : SheetConfig} {c : Contents} (h : c.IsCanonical config) :
    c.IsWritable := by
  cases c with
  | number x => exact h
  | text s => trivial
  | formula f => exact ⟨config.rules, f.chars, Formula.parse_chars h⟩

end Contents

namespace SheetFile

/-! ### Lines -/

theorem splitLines_cons_newline (text : List Char) :
    splitLines ('\n' :: text) = [] :: splitLines text := by
  simp [splitLines]

theorem splitLines_cons {c : Char} (hc : c ≠ '\n') {text line : List Char}
    {lines : List (List Char)}
    (h : splitLines text = line :: lines) : splitLines (c :: text) = (c :: line) :: lines := by
  unfold splitLines at h ⊢
  rw [List.foldr_cons, if_neg hc, h]

theorem splitLines_append_newline {line : List Char} (hline : '\n' ∉ line) (text : List Char) :
    splitLines (line ++ '\n' :: text) = line :: splitLines text := by
  induction line with
  | nil => exact splitLines_cons_newline text
  | cons c rest ih =>
    have hc : c ≠ '\n' := fun heq => hline (heq ▸ .head _)
    exact splitLines_cons hc (ih fun hmem => hline (.tail _ hmem))

theorem splitLines_flatMap_append {lines : List (List Char)} (hlines : ∀ l ∈ lines, '\n' ∉ l)
    (text : List Char) :
    splitLines (lines.flatMap (· ++ ['\n']) ++ text) = lines ++ splitLines text := by
  induction lines with
  | nil => rfl
  | cons line rest ih =>
    rw [List.flatMap_cons, List.append_assoc, List.append_assoc, List.singleton_append,
      splitLines_append_newline (hlines line (.head _)), ih fun l hl => hlines l (.tail _ hl)]
    rfl

/-- Lines are cut where they were joined. -/
theorem splitLines_lines {lines : List (List Char)} (hlines : ∀ l ∈ lines, '\n' ∉ l) :
    splitLines (lines.flatMap (· ++ ['\n'])) = lines ++ [[]] := by
  have hcut := splitLines_flatMap_append hlines []
  rw [List.append_nil] at hcut
  exact hcut

theorem toList_intercalate_newline {lines : List String} (hne : lines ≠ []) :
    ("\n".intercalate lines ++ "\n").toList =
      (lines.map String.toList).flatMap (· ++ ['\n']) := by
  induction lines with
  | nil => exact absurd rfl hne
  | cons line rest ih =>
    cases rest with
    | nil => simp
    | cons next rest =>
      rw [String.intercalate_cons_cons, List.map_cons, List.flatMap_cons, ← ih (by simp)]
      simp [String.append_assoc]

/-! ### What stands in a line -/

/-- What can stand after the colon of a line and is found there again. -/
structure IsValue (value : List Char) : Prop where
  newline : '\n' ∉ value
  ne_nil : value ≠ []
  start : Stops Text.isBlank value
  stop : Stops Text.isBlank value.reverse

theorem isValue_quote (text : List Char) : IsValue (quote text) where
  newline := newline_not_mem_quote text
  ne_nil := by simp [quote]
  start := Text.stops_cons (by decide)
  stop := by
    rw [quote, List.reverse_cons, List.reverse_append]
    exact Text.stops_cons (by decide)

theorem isValue_of_isVisible {value : List Char} (hne : value ≠ [])
    (h : ∀ c ∈ value, Text.isVisible c = true) : IsValue value where
  newline hmem := by
    have := h _ hmem
    revert this
    decide
  ne_nil := hne
  start := Text.stops_isBlank_of_isVisible h
  stop := Text.stops_isBlank_of_isVisible fun c hc => h c (List.mem_reverse.1 hc)

/-- A text is cut at its first colon. -/
theorem splitColon_eq_ok_iff {text key value : List Char} :
    splitColon text = .ok (key, value) ↔ ∃ before after, text = before ++ ':' :: after ∧
      ':' ∉ before ∧ Text.trim before = key ∧ Text.trim after = value := by
  constructor
  · intro h
    unfold splitColon at h
    split at h
    · cases h
    · next c after hdrop =>
      obtain ⟨rfl, rfl⟩ := Prod.mk.inj (Except.ok.inj h)
      -- the cut falls at a character that is no other than a colon
      have hstops := Text.stops_dropWhile (fun c => decide (c ≠ ':')) text
      rw [hdrop] at hstops
      obtain rfl : c = ':' := by simpa using hstops c rfl
      refine ⟨_, after, ?_, fun hmem => ?_, rfl, rfl⟩
      · rw [← hdrop, List.takeWhile_append_dropWhile]
      · simpa using List.mem_takeWhile_imp hmem
  · rintro ⟨before, after, rfl, hcolon, rfl, rfl⟩
    have hbefore : ∀ c ∈ before, decide (c ≠ ':') = true := by
      intro c hc
      rw [decide_eq_true_eq]
      rintro rfl
      exact hcolon hc
    have hstops : Text.Stops (fun c => decide (c ≠ ':')) (':' :: after) :=
      Text.stops_cons (by decide)
    rw [splitColon, Text.dropWhile_append_of_stops hbefore hstops,
      Text.takeWhile_append_of_stops hbefore hstops]

/-- A line that is a key, a colon, a blank and a value is cut at the colon. -/
theorem splitColon_line {key value : List Char} (hkey : ∀ c ∈ key, Text.isVisible c = true)
    (hcolon : ':' ∉ key) (hvalue : IsValue value) :
    splitColon (key ++ ':' :: ' ' :: value) = .ok (key, value) := by
  have hkeytrim : Text.trim key = key :=
    Text.trim_eq_self (Text.stops_isBlank_of_isVisible hkey)
      (Text.stops_isBlank_of_isVisible fun c hc => hkey c (List.mem_reverse.1 hc))
  have hvaluetrim : Text.trim (' ' :: value) = value := by
    rw [Text.trim_cons_blank (by decide), Text.trim_eq_self hvalue.start hvalue.stop]
  exact splitColon_eq_ok_iff.2 ⟨key, ' ' :: value, rfl, hcolon, hkeytrim, hvaluetrim⟩

/-- No blanks are cut from a line that starts with a key and ends with a value. -/
theorem trim_line {key value : List Char} (hne : key ≠ [])
    (hkey : ∀ c ∈ key, Text.isVisible c = true) (hvalue : IsValue value) :
    Text.trim (key ++ ':' :: ' ' :: value) = key ++ ':' :: ' ' :: value := by
  refine Text.trim_eq_self ?_ ?_
  · cases key with
    | nil => exact absurd rfl hne
    | cons c cs => exact Text.stops_cons (Text.isBlank_of_isVisible (hkey c (.head _)))
  · -- at its end the line stops where the value does
    have hrev : (key ++ ':' :: ' ' :: value).reverse =
        value.reverse ++ ' ' :: ':' :: key.reverse := by
      simp
    rw [hrev]
    cases hvalue' : value.reverse with
    | nil => exact absurd (List.reverse_eq_nil_iff.1 hvalue') hvalue.ne_nil
    | cons c cs =>
      have hstop := hvalue.stop
      rw [hvalue'] at hstop
      exact Text.stops_cons (hstop c rfl)

/-! ### The lines of a sheet file -/

section Cells

variable {c : Contents}

theorem valueText_withoutNegativeZero (c : Contents) :
    valueText c.withoutNegativeZero = valueText c := by
  cases c with
  | number x => exact Contents.input_withoutNegativeZero (.number x)
  | _ => rfl

/-- The value of a cell stands on one line, without blanks around it. -/
theorem isValue_valueText (h : c.IsWritable) : IsValue (valueText c).toList := by
  cases c with
  | number x =>
    rw [valueText, Contents.toList_input_number]
    · refine isValue_of_isVisible ?_ fun d hd => Number.isVisible_canonicalChars h hd
      -- nothing is read from an empty text
      intro hnil
      have hread := Number.readFinite?_canonicalChars h
      rw [hnil] at hread
      cases hread
    · simp
  | text s =>
    rw [valueText, String.toList_ofList]
    exact isValue_quote s.toList
  | formula f =>
    obtain ⟨rules, text, hparse⟩ := h
    have hplain := (Formula.fits_of_parse hparse).2
    rw [valueText, Contents.toList_input_formula]
    · exact isValue_of_isVisible (by simp) fun d hd =>
        Contents.isVisible_of_mem_formula hplain hd
    · simp

theorem cellInput_valueText (h : c.IsWritable) :
    cellInput (valueText c).toList = .ok c.input.toList := by
  cases c with
  | number x =>
    rw [valueText, Contents.toList_input_number]
    · -- a number is read as one, so it has neither mark
      have hread := Number.readFinite?_canonicalChars h
      unfold cellInput
      split
      · next hnil =>
        rw [hnil] at hread
        cases hread
      · rfl
      · next rest hchars =>
        rw [hchars, readFinite?_of_mark (.inr rfl)] at hread
        cases hread
      · rw [hread]
        rfl
    · simp
  | text s =>
    rw [valueText, String.toList_ofList]
    have hquote := unquote?_quote s.toList
    rw [quote] at hquote ⊢
    rw [cellInput, hquote]
    rfl
  | formula f =>
    rw [valueText, Contents.toList_input_formula]
    · rfl
    · simp

/-- The line of a cell gives its name and the input of its contents. -/
theorem read_cellLine {name : String} (hname : isVariableName name = true)
    (h : c.IsWritable) :
    SheetLine.read (name.toList ++ ':' :: ' ' :: (valueText c).toList) =
      .ok (.cell name c.input) := by
  have hvalue := isValue_valueText h
  have hvisible : ∀ d ∈ name.toList, Text.isVisible d = true := fun d hd =>
    isVisible_of_continuesName (continuesName_of_mem hname hd)
  have hcolon : ':' ∉ name.toList := by
    intro hmem
    exact absurd (continuesName_of_mem hname hmem) (by decide)
  obtain ⟨first, tail, hchars, hfirst⟩ := exists_of_isVariableName hname
  have hne : name.toList ≠ [] := by simp [hchars]
  -- a name starts neither a comment nor an attribute
  have hskip : isSkipped (name.toList ++ ':' :: ' ' :: (valueText c).toList) = false := by
    rw [hchars, List.cons_append, isSkipped, beq_eq_false_iff_ne]
    rintro rfl
    cases hfirst
  have hat : ∀ entry, name.toList ++ ':' :: ' ' :: (valueText c).toList ≠ '@' :: entry := by
    intro entry hentry
    rw [hchars, List.cons_append] at hentry
    obtain ⟨rfl, -⟩ := List.cons.inj hentry
    cases hfirst
  rw [SheetLine.read, trim_line hne hvisible hvalue, SheetLine.readTrimmed, hskip,
    if_neg Bool.false_ne_true, splitColon_line hvisible hcolon hvalue]
  · show (if name.toList.isEmpty = true then _ else _) = _
    rw [if_neg (by simpa using hne), cellInput_valueText h]
    show Except.ok (SheetLine.cell (String.ofList _) (String.ofList _)) = _
    rw [String.ofList_toList, String.ofList_toList]
  · exact hat

end Cells

/-! ### The line of the version -/

theorem trim_versionLine (version : String) :
    Text.trim ("@version".toList ++ ':' :: ' ' :: quote version.toList) =
      '@' :: ("version".toList ++ ':' :: ' ' :: quote version.toList) :=
  trim_line (by simp) (List.all_eq_true.1 rfl) (isValue_quote version.toList)

theorem splitColon_versionLine (version : String) :
    splitColon ("version".toList ++ ':' :: ' ' :: quote version.toList) =
      .ok ("version".toList, quote version.toList) :=
  splitColon_line (List.all_eq_true.1 rfl) (by simp) (isValue_quote version.toList)

theorem read_versionLine (version : String) :
    SheetLine.read ("@version".toList ++ ':' :: ' ' :: quote version.toList) =
      .ok (.version version) := by
  rw [SheetLine.read, trim_versionLine]
  show (splitColon ("version".toList ++ ':' :: ' ' :: quote version.toList) >>= _) = _
  rw [splitColon_versionLine]
  show Except.ok (SheetLine.version ((unquote? (quote version.toList)).map String.ofList)) = _
  rw [unquote?_quote, Option.map_some, String.ofList_toList]

/-! ### Sheet files -/

/-- The cells of a sheet file, the first of them on line `number`. -/
def savedCells (number : Nat) : List (String × Contents) → List SavedCell
  | [] => []
  | (name, c) :: rest => ⟨number, name, c.input⟩ :: savedCells (number + 1) rest

theorem savedCells_eq_mapIdx (number : Nat) (cells : List (String × Contents)) :
    savedCells number cells =
      cells.mapIdx fun i (name, c) => ⟨i + number, name, c.input⟩ := by
  induction cells generalizing number with
  | nil => rfl
  | cons p rest ih =>
    -- the index counts from zero and the number from the first line
    rw [savedCells, ih, List.mapIdx_cons, Nat.zero_add]
    refine congrArg _ (congrArg (rest.mapIdx ·) (funext fun i => ?_))
    rw [Nat.add_assoc, Nat.add_comm 1]

theorem map_name_savedCells (number : Nat) (cells : List (String × Contents)) :
    (savedCells number cells).map (·.name) = cells.map (·.1) := by
  induction cells generalizing number with
  | nil => rfl
  | cons p rest ih => rw [savedCells, List.map_cons, List.map_cons, ih]

theorem exists_of_mem_savedCells {number : Nat} {cells : List (String × Contents)}
    {cell : SavedCell}
    (h : cell ∈ savedCells number cells) : ∃ c, (cell.name, c) ∈ cells ∧ cell.input = c.input := by
  induction cells generalizing number with
  | nil => cases h
  | cons p rest ih =>
    rcases List.mem_cons.1 h with rfl | h
    · exact ⟨p.2, .head _, rfl⟩
    · obtain ⟨c, hc, hinput⟩ := ih h
      exact ⟨c, .tail _ hc, hinput⟩

/-- The lines of a sheet file. -/
def lines (version : String) (cells : List (String × Contents)) : List (List Char) :=
  header.toList :: ("@version".toList ++ ':' :: ' ' :: quote version.toList) ::
    cells.map fun (name, c) => name.toList ++ ':' :: ' ' :: (valueText c).toList

theorem toList_sheetText (version : String) (cells : List (String × Contents)) :
    (sheetText version cells).toList = (lines version cells).flatMap (· ++ ['\n']) := by
  unfold sheetText
  rw [toList_intercalate_newline (by simp), lines]
  refine congrArg (List.flatMap (· ++ ['\n'])) ?_
  simp [Function.comp_def]

section Sheet

variable {cells : List (String × Contents)}
  (hnames : ∀ p ∈ cells, isVariableName p.1 = true)
  (hcells : ∀ p ∈ cells, p.2.IsWritable)

include hnames hcells in
theorem newline_not_mem_lines (version : String) : ∀ l ∈ lines version cells, '\n' ∉ l := by
  intro l hl
  rcases List.mem_cons.1 hl with rfl | hl
  · decide
  rcases List.mem_cons.1 hl with rfl | hl
  · have := newline_not_mem_quote version.toList
    simp_all
  · obtain ⟨⟨name, c⟩, hp, rfl⟩ := List.mem_map.1 hl
    have hname : '\n' ∉ name.toList := by
      intro hmem
      exact absurd (continuesName_of_mem (hnames _ hp) hmem) (by decide)
    have hvalue := (isValue_valueText (hcells _ hp)).newline
    simp [hname, hvalue]

include hnames hcells in
/-- The lines of cells are read one after the other. -/
theorem readFrom_cellLines (version : String) (saved : List SavedCell) (number : Nat) :
    SavedSheet.readFrom (some version) saved number
        ((cells.map fun (name, c) => name.toList ++ ':' :: ' ' :: (valueText c).toList) ++ [[]]) =
      .ok ⟨version, saved.reverse ++ savedCells number cells⟩ := by
  induction cells generalizing saved number with
  | nil =>
    -- after the last line feed stands an empty line
    have hblank : SheetLine.read [] = .ok .blank := rfl
    rw [List.map_nil, List.nil_append, SavedSheet.readFrom, hblank, savedCells, List.append_nil]
    rfl
  | cons p rest ih =>
    obtain ⟨name, c⟩ := p
    rw [List.map_cons, List.cons_append, SavedSheet.readFrom,
      read_cellLine (hnames _ (.head _)) (hcells _ (.head _))]
    dsimp only
    rw [ih (fun p hp => hnames p (.tail _ hp)) (fun p hp => hcells p (.tail _ hp)), savedCells,
      List.reverse_cons, List.append_assoc, List.singleton_append]

include hnames hcells in
/-- A sheet file gives its version and its cells, which start on its third line. -/
theorem read_sheetText (version : String) :
    SavedSheet.read (sheetText version cells) = .ok ⟨version, savedCells 3 cells⟩ := by
  -- the header is passed over, and the version comes before all cells
  have hheader : SheetLine.read header.toList = .ok .blank := by decide
  rw [SavedSheet.read, toList_sheetText,
    splitLines_lines (newline_not_mem_lines hnames hcells version), lines, List.cons_append,
    SavedSheet.readFrom, hheader]
  dsimp only
  rw [List.cons_append, SavedSheet.readFrom, read_versionLine]
  dsimp only
  rw [readFrom_cellLines hnames hcells]
  rfl

include hnames hcells in
/-- The version of a sheet file is found without looking at its cells. -/
theorem readVersion_sheetText (version : String) :
    readVersion (sheetText version cells) = .ok version := by
  -- the header is a comment, and behind the version line nothing is read
  have hheader : isSkipped (Text.trim header.toList) = true := by decide
  rw [readVersion, toList_sheetText,
    splitLines_lines (newline_not_mem_lines hnames hcells version), lines, List.cons_append,
    readVersionFrom, if_pos hheader, List.cons_append, readVersionFrom, trim_versionLine,
    if_neg (by simp [isSkipped])]
  simp only [splitColon_versionLine, if_true, unquote?_quote, String.ofList_toList]

end Sheet

/-- The reader undoes the writer.  Whatever the version and the texts of the cells are, a sheet file
is read as that version and those cells in that order, each with the input of its contents and the
number of its line; the header and the version stand before them.  The version alone is read as
well. -/
theorem sheetText_readBack {cells : List (String × Contents)}
    (hnames : ∀ p ∈ cells, isVariableName p.1 = true) (hcells : ∀ p ∈ cells, p.2.IsWritable)
    (version : String) :
    SavedSheet.read (sheetText version cells) =
        .ok ⟨version, cells.mapIdx fun i (name, c) => ⟨i + 3, name, c.input⟩⟩ ∧
      readVersion (sheetText version cells) = .ok version := by
  rw [read_sheetText hnames hcells, savedCells_eq_mapIdx]
  exact ⟨rfl, readVersion_sheetText hnames hcells version⟩

/-- A version of three lines, and four cells: a text that ends in a backslash between blanks, a
small number, no text, and a formula in the first cell again. -/
theorem sheetText_readBack_repeated :
    ∃ f, Formula.parse {} "(x_1 - .5) * 2e3".toList = .ok f ∧
      let version := "a\n\"b\"\n\\"
      let cells : List (String × Contents) :=
        [("note", .text " #\"=\\ "), ("x_1", .number (-1.5e-7)), ("B2", .text ""),
          ("note", .formula f)]
      (∀ p ∈ cells, isVariableName p.1 = true) ∧ (∀ p ∈ cells, p.2.IsWritable) ∧
        SavedSheet.read (sheetText version cells) = .ok ⟨version,
          [⟨3, "note", " #\"=\\ "⟩, ⟨4, "x_1", "-1.5e-7"⟩, ⟨5, "B2", ""⟩,
            ⟨6, "note", "=(x_1-0.5)*2000"⟩]⟩ ∧
        readVersion (sheetText version cells) = .ok version := by
  obtain ⟨f, hf, htext⟩ : ∃ f, Formula.parse {} "(x_1 - .5) * 2e3".toList = .ok f ∧
      f.text = "(x_1-0.5)*2000" := by
    have hparsed : (Formula.parse {} "(x_1 - .5) * 2e3".toList).toOption.map Formula.text =
        some "(x_1-0.5)*2000" := by
      decide +kernel
    cases hf : Formula.parse {} "(x_1 - .5) * 2e3".toList with
    | error e =>
      rw [hf] at hparsed
      cases hparsed
    | ok f =>
      rw [hf] at hparsed
      exact ⟨f, rfl, Option.some.inj hparsed⟩
  refine ⟨f, hf, ?_⟩
  intro version cells
  have hnames : ∀ p ∈ cells, isVariableName p.1 = true := by
    simp only [cells, List.forall_mem_cons]
    decide
  have hfinite : Float.isFinite (-1.5e-7) = true := by decide
  have hcells : ∀ p ∈ cells, p.2.IsWritable := by
    simp only [cells, List.forall_mem_cons]
    exact ⟨trivial, hfinite, trivial, ⟨_, _, hf⟩, by simp⟩
  obtain ⟨hread, hversion⟩ := sheetText_readBack hnames hcells version
  have hnumber : (Contents.number (-1.5e-7)).input = "-1.5e-7" := by decide +kernel
  have hformula : (Contents.formula f).input = "=(x_1-0.5)*2000" := by
    rw [Contents.input, htext]
    rfl
  refine ⟨hnames, hcells, ?_, hversion⟩
  rw [hread, ← hnumber, ← hformula]
  rfl

end SheetFile

end FormulaSheet
