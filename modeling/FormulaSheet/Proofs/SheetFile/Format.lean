/-
The format of a sheet file.

Lines that are blank or comments do not count.  Of the lines that do, the first is the version,
which no other line with an `@` may follow, and all others are cells: a name, a colon, and a
formula, a quoted text or a finite number.  A text of any other form has a first bad line, or it has
no bad line and no version.

* **`IsInput`**, **`IsCellLine`** — the line of a cell, and the input that its value stands for;
* **`read_eq_blank_iff`**, **`read_eq_version_iff`**, **`read_eq_cell_iff`** — what one line is
  read as;
* **`linesOf`**, **`numbered`** — the lines of a text, and those that count, with their numbers;
* **`Makes`**, **`readFrom_none_eq_ok_iff`** — the format, which is what is read;
* **`readFrom_cons_cases`**, **`exists_of_readFrom_badLine`** — a line either is bad or lets the
  reading go on, so the first bad line decides;
* **`read_format`** — all of this for texts.

Whether a line is bad depends on the lines before it, but only on whether there was a version or a
cell among them; what stands after it is never looked at.
-/
import FormulaSheet.Proofs.SheetFile.Version

namespace FormulaSheet.SheetFile

/-! ### Cells -/

/-- The input that the value of a cell stands for: a formula and a finite number stand for
themselves, a quoted text for what is between the quotes. -/
inductive IsInput : List Char → List Char → Prop
  | formula (body : List Char) : IsInput ('=' :: body) ('=' :: body)
  | quoted {body text : List Char} (h : StandsFor body text) :
      IsInput ('"' :: (body ++ ['"'])) text
  | number {value : List Char} {x : Float} (hread : Number.read? value = some x)
      (hfinite : x.isFinite = true) : IsInput value value

theorem isSome_readFinite?_iff {value : List Char} : (Number.readFinite? value).isSome = true ↔
    ∃ x, Number.read? value = some x ∧ x.isFinite = true := by
  rw [Number.readFinite?, Option.isSome_iff_exists]
  simp only [Option.filter_eq_some_iff]

theorem cellInput_eq_ok_iff {value input : List Char} :
    cellInput value = .ok input ↔ IsInput value input := by
  constructor
  · intro h
    unfold cellInput at h
    split at h
    · cases h
    · obtain rfl := Except.ok.inj h
      exact .formula _
    · split at h
      · next text htext =>
        obtain rfl := Except.ok.inj h
        obtain ⟨body, hvalue, hbody⟩ := unquote?_eq_some_iff.1 htext
        rw [hvalue]
        exact .quoted hbody
      · cases h
    · split at h
      · next hnumber =>
        obtain rfl := Except.ok.inj h
        obtain ⟨x, hread, hfinite⟩ := isSome_readFinite?_iff.1 hnumber
        exact .number hread hfinite
      · cases h
  · intro h
    cases h with
    | formula body => rfl
    | quoted hbody =>
      simp only [cellInput, unquote?_eq_some_iff.2 ⟨_, rfl, hbody⟩]
    | number hread hfinite =>
      -- a finite number is read as one, so it starts with neither mark
      have hnumber := isSome_readFinite?_iff.2 ⟨_, hread, hfinite⟩
      unfold cellInput
      split
      · cases hnumber
      · rfl
      · rw [readFinite?_of_mark (.inr rfl)] at hnumber
        cases hnumber
      · rw [if_pos hnumber]

/-- The line of a cell: a name that is not empty before its first colon, and a value after it. -/
def IsCellLine (line : List Char) (name input : String) : Prop :=
  ∃ before after, Text.trim line = before ++ ':' :: after ∧ ':' ∉ before ∧
    Text.trim before = name.toList ∧ name ≠ "" ∧ IsInput (Text.trim after) input.toList

/-- A line that starts with `@`. -/
def IsAttribute (line : List Char) : Prop :=
  ∃ entry, Text.trim line = '@' :: entry

/-! ### One line -/

section Line

variable {line : List Char} {name input tag : String}

theorem read_of_isPassedOver (h : IsPassedOver line) : SheetLine.read line = .ok .blank := by
  unfold SheetLine.read SheetLine.readTrimmed
  rw [if_pos (isSkipped_trim_iff.2 h)]

theorem read_of_isVersionLine (h : IsVersionLine line tag) :
    SheetLine.read line = .ok (.version (some tag)) := by
  obtain ⟨entry, value, hline, hentry, hvalue⟩ := isVersionLine_iff.1 h
  unfold SheetLine.read SheetLine.readTrimmed
  rw [hline, if_neg (by simp [isSkipped])]
  -- what is compared with the key is a text, so the key is held apart from it
  have hread : ∀ key, key = "version".toList → splitColon entry = .ok (key, value) →
      (splitColon entry >>= fun cut =>
        if cut.1 = "version".toList then .ok (.version ((unquote? cut.2).map String.ofList))
        else .error (.unknownAttribute (String.ofList cut.1))) =
      Except.ok (SheetLine.version (some tag)) := by
    intro key hkey hentry
    refine bind_eq_ok_iff.2 ⟨(key, value), hentry, (if_pos hkey).trans ?_⟩
    rw [hvalue, Option.map_some, String.ofList_toList]
  exact hread _ rfl hentry

/-- A line that counts and is no attribute is cut at its first colon. -/
theorem read_of_plain (hpassed : ¬ IsPassedOver line) (hattribute : ¬ IsAttribute line) :
    SheetLine.read line = splitColon (Text.trim line) >>= fun cut =>
      if cut.1.isEmpty then .error .noName
      else cellInput cut.2 >>= fun input =>
        .ok (.cell (String.ofList cut.1) (String.ofList input)) := by
  unfold SheetLine.read SheetLine.readTrimmed
  rw [if_neg (mt isSkipped_trim_iff.1 hpassed)]
  split
  · next entry hentry => exact absurd ⟨entry, hentry⟩ hattribute
  · rfl

theorem read_of_isCellLine (hpassed : ¬ IsPassedOver line) (hattribute : ¬ IsAttribute line)
    (h : IsCellLine line name input) : SheetLine.read line = .ok (.cell name input) := by
  obtain ⟨before, after, hline, hcolon, hbefore, hname, hinput⟩ := h
  have hsplit : splitColon (Text.trim line) = .ok (name.toList, Text.trim after) :=
    splitColon_eq_ok_iff.2 ⟨before, after, hline, hcolon, hbefore, rfl⟩
  rw [read_of_plain hpassed hattribute, hsplit]
  show (if _ then _ else _ : Except LineFault SheetLine) = _
  rw [if_neg (by simpa using hname), cellInput_eq_ok_iff.2 hinput]
  show Except.ok (SheetLine.cell (String.ofList _) (String.ofList _)) = _
  rw [String.ofList_toList, String.ofList_toList]

/-- Whatever is read as a cell is the line of one. -/
theorem isCellLine_of_read (h : SheetLine.read line = .ok (.cell name input)) :
    ¬ IsAttribute line ∧ IsCellLine line name input := by
  unfold SheetLine.read SheetLine.readTrimmed at h
  split at h
  · cases h
  split at h
  · obtain ⟨⟨key, value⟩, -, h⟩ := bind_eq_ok_iff.1 h
    dsimp only at h
    split at h <;> cases h
  · next hattribute =>
    refine ⟨fun ⟨entry, hentry⟩ => hattribute entry hentry, ?_⟩
    obtain ⟨⟨key, value⟩, hsplit, h⟩ := bind_eq_ok_iff.1 h
    dsimp only at h
    split at h
    · cases h
    · next hkey =>
      obtain ⟨read, hread, h⟩ := bind_eq_ok_iff.1 h
      obtain ⟨rfl, rfl⟩ := SheetLine.cell.inj (Except.ok.inj h)
      obtain ⟨before, after, hline, hcolon, hbefore, rfl⟩ := splitColon_eq_ok_iff.1 hsplit
      refine ⟨before, after, hline, hcolon, ?_, by simpa using hkey, ?_⟩
      · rw [hbefore, String.toList_ofList]
      · rw [String.toList_ofList]
        exact cellInput_eq_ok_iff.1 hread

theorem read_eq_blank_iff : SheetLine.read line = .ok .blank ↔ IsPassedOver line := by
  refine ⟨fun h => ?_, read_of_isPassedOver⟩
  rcases read_cases h with ⟨hpassed, -⟩ | ⟨entry, value, -, -, heq⟩ | ⟨name, input, heq⟩
  · exact hpassed
  · cases heq
  · cases heq

theorem read_eq_version_iff :
    SheetLine.read line = .ok (.version (some tag)) ↔ IsVersionLine line tag := by
  refine ⟨fun h => ?_, read_of_isVersionLine⟩
  rcases read_cases h with ⟨-, heq⟩ | ⟨entry, value, hline, hentry, heq⟩ | ⟨name, input, heq⟩
  · cases heq
  · obtain ⟨text, htext, rfl⟩ := Option.map_eq_some_iff.1 (SheetLine.version.inj heq).symm
    refine isVersionLine_iff.2 ⟨entry, value, hline, hentry, ?_⟩
    rw [htext, String.toList_ofList]
  · cases heq

theorem read_eq_cell_iff : SheetLine.read line = .ok (.cell name input) ↔
    ¬ IsPassedOver line ∧ ¬ IsAttribute line ∧ IsCellLine line name input := by
  refine ⟨fun h => ⟨fun hpassed => ?_, isCellLine_of_read h⟩, ?_⟩
  · rw [read_of_isPassedOver hpassed] at h
    cases h
  · rintro ⟨hpassed, hattribute, hline⟩
    exact read_of_isCellLine hpassed hattribute hline

end Line

/-! ### Lines that count -/

instance : DecidablePred IsPassedOver :=
  fun _ => decidable_of_iff _ isSkipped_trim_iff

/-- The lines that count, each with its number. -/
def numbered (number : Nat) (lines : List (List Char)) : List (List Char × Nat) :=
  (lines.zipIdx number).filter fun entry => ¬ IsPassedOver entry.1

/-- A line that counts is that of a cell. -/
def IsCellAt (entry : List Char × Nat) (cell : SavedCell) : Prop :=
  cell.line = entry.2 ∧ ¬ IsAttribute entry.1 ∧ IsCellLine entry.1 cell.name cell.input

/-- Lines make a sheet: the first line that counts is its version, and all others, none of which
starts with `@`, are its cells. -/
def Makes (lines : List (List Char)) (sheet : SavedSheet) : Prop :=
  ∃ versionLine cellLines, numbered 1 lines = versionLine :: cellLines ∧
    IsVersionLine versionLine.1 sheet.version ∧ List.Forall₂ IsCellAt cellLines sheet.cells

section Numbered

variable {line : List Char} {rest : List (List Char)} {number : Nat}

theorem numbered_of_isPassedOver (h : IsPassedOver line) :
    numbered number (line :: rest) = numbered (number + 1) rest := by
  rw [numbered, List.zipIdx_cons, List.filter_cons_of_neg (by simpa using h), numbered]

theorem numbered_of_not_isPassedOver (h : ¬ IsPassedOver line) :
    numbered number (line :: rest) = (line, number) :: numbered (number + 1) rest := by
  rw [numbered, List.zipIdx_cons, List.filter_cons_of_pos (by simpa using h), numbered]

theorem isCellAt_iff (h : ¬ IsPassedOver line) {cell : SavedCell} : IsCellAt (line, number) cell ↔
    SheetLine.read line = .ok (.cell cell.name cell.input) ∧ cell.line = number := by
  rw [read_eq_cell_iff, IsCellAt]
  exact ⟨fun ⟨hnumber, hcell⟩ => ⟨⟨h, hcell⟩, hnumber⟩, fun ⟨⟨_, hcell⟩, hnumber⟩ =>
    ⟨hnumber, hcell⟩⟩

theorem forall₂_isCellAt_cons_iff (h : ¬ IsPassedOver line) {entries : List (List Char × Nat)}
    {cells : List SavedCell} : List.Forall₂ IsCellAt ((line, number) :: entries) cells ↔
      ∃ name input later, SheetLine.read line = .ok (.cell name input) ∧
        cells = ⟨number, name, input⟩ :: later ∧ List.Forall₂ IsCellAt entries later := by
  constructor
  · intro hcells
    cases hcells with
    | @cons _ cell _ later hcell hlater =>
      obtain ⟨hread, rfl⟩ := (isCellAt_iff h).1 hcell
      exact ⟨cell.name, cell.input, later, hread, rfl, hlater⟩
  · rintro ⟨name, input, later, hread, rfl, hlater⟩
    exact .cons ((isCellAt_iff h).2 ⟨hread, rfl⟩) hlater

end Numbered

/-! ### What is read -/

section Reading

variable {line : List Char} {lines rest : List (List Char)} {cells : List SavedCell}
  {number : Nat} {sheet : SavedSheet} {version : Option String}

/-- After the version, a sheet is read exactly if all lines that count are cells. -/
theorem readFrom_some_eq_ok_iff {tag : String} :
    SavedSheet.readFrom (some tag) cells number lines = .ok sheet ↔
      ∃ later, List.Forall₂ IsCellAt (numbered number lines) later ∧
        ⟨tag, cells.reverse ++ later⟩ = sheet := by
  induction lines generalizing cells number with
  | nil =>
    rw [SavedSheet.readFrom, Except.ok.injEq]
    constructor
    · intro hsheet
      exact ⟨[], .nil, by rw [List.append_nil, hsheet]⟩
    · rintro ⟨later, hlater, hsheet⟩
      cases hlater
      rw [← hsheet, List.append_nil]
  | cons line rest ih =>
    by_cases hpassed : IsPassedOver line
    · rw [SavedSheet.readFrom, read_of_isPassedOver hpassed, numbered_of_isPassedOver hpassed]
      exact ih
    rw [numbered_of_not_isPassedOver hpassed, SavedSheet.readFrom]
    simp only [forall₂_isCellAt_cons_iff hpassed]
    cases hread : SheetLine.read line with
    | error fault => simp
    | ok said =>
      cases said with
      | blank => exact absurd (read_eq_blank_iff.1 hread) hpassed
      | version tag' => simp
      | cell name input =>
        dsimp only
        rw [ih]
        constructor
        · rintro ⟨later, hlater, rfl⟩
          refine ⟨⟨number, name, input⟩ :: later, ⟨name, input, later, rfl, rfl, hlater⟩, ?_⟩
          -- cells are kept with the last one first
          rw [List.reverse_cons, List.append_assoc, List.singleton_append]
        · rintro ⟨_, ⟨name', input', later, heq, rfl, hlater⟩, rfl⟩
          obtain ⟨rfl, rfl⟩ := SheetLine.cell.inj (Except.ok.inj heq)
          refine ⟨later, hlater, ?_⟩
          rw [List.reverse_cons, List.append_assoc, List.singleton_append]

/-- A sheet is read exactly if the first line that counts is its version and the others are its
cells. -/
theorem readFrom_none_eq_ok_iff : SavedSheet.readFrom none [] number lines = .ok sheet ↔
    ∃ versionLine cellLines, numbered number lines = versionLine :: cellLines ∧
      IsVersionLine versionLine.1 sheet.version ∧ List.Forall₂ IsCellAt cellLines sheet.cells := by
  induction lines generalizing number with
  | nil => simp [SavedSheet.readFrom, numbered]
  | cons line rest ih =>
    by_cases hpassed : IsPassedOver line
    · rw [SavedSheet.readFrom, read_of_isPassedOver hpassed, numbered_of_isPassedOver hpassed]
      exact ih
    rw [numbered_of_not_isPassedOver hpassed, SavedSheet.readFrom]
    simp only [List.cons.injEq, ← read_eq_version_iff]
    cases hread : SheetLine.read line with
    | error fault => simp +contextual [hread]
    | ok said =>
      cases said with
      | blank => exact absurd (read_eq_blank_iff.1 hread) hpassed
      | version tag =>
        cases tag with
        | none =>
          refine iff_of_false (fun h => by cases h) ?_
          rintro ⟨_, _, ⟨rfl, rfl⟩, heq, -⟩
          cases hread.symm.trans heq
        | some tag =>
          show SavedSheet.readFrom (some tag) [] (number + 1) rest = .ok sheet ↔ _
          rw [readFrom_some_eq_ok_iff]
          constructor
          · rintro ⟨later, hlater, rfl⟩
            exact ⟨_, _, ⟨rfl, rfl⟩, hread, hlater⟩
          · rintro ⟨_, _, ⟨rfl, rfl⟩, heq, hlater⟩
            obtain rfl : tag = sheet.version :=
              Option.some.inj (SheetLine.version.inj (Except.ok.inj (hread.symm.trans heq)))
            exact ⟨_, hlater, rfl⟩
      -- a cell before the version is not made good by any line after it
      | cell name input =>
        refine iff_of_false (readFrom_ne_ok (List.cons_ne_nil _ _)) ?_
        rintro ⟨_, _, ⟨rfl, rfl⟩, heq, -⟩
        cases hread.symm.trans heq

end Reading

/-! ### The first bad line -/

section Faults

variable {lines lines' : List (List Char)} {cells : List SavedCell} {number k : Nat}
  {version : Option String} {fault : LineFault}

/-- A line is bad after the lines before it, or the reading goes on; what follows has no part in
that. -/
theorem readFrom_cons_cases (version : Option String) (cells : List SavedCell) (number : Nat)
    (line : List Char) :
    (∃ fault, ∀ rest, SavedSheet.readFrom version cells number (line :: rest) =
      .error (.badLine number fault)) ∨
    ∃ version' cells', ∀ rest, SavedSheet.readFrom version cells number (line :: rest) =
      SavedSheet.readFrom version' cells' (number + 1) rest := by
  simp only [SavedSheet.readFrom]
  cases SheetLine.read line with
  | error fault => exact .inl ⟨fault, fun _ => rfl⟩
  | ok said =>
    cases said with
    | blank => exact .inr ⟨version, cells, fun _ => rfl⟩
    | cell name input => exact .inr ⟨version, ⟨number, name, input⟩ :: cells, fun _ => rfl⟩
    | version tag =>
      dsimp only
      by_cases hsecond : version.isSome = true
      · simp only [hsecond, if_true]
        exact .inl ⟨.secondVersion, fun _ => rfl⟩
      by_cases hlate : (!cells.isEmpty) = true
      · simp only [hsecond, hlate, if_true]
        exact .inl ⟨.lateVersion, fun _ => rfl⟩
      simp only [hsecond, hlate]
      cases tag with
      | none => exact .inl ⟨.versionNotQuoted, fun _ => rfl⟩
      | some tag => exact .inr ⟨some tag, cells, fun _ => rfl⟩

/-- The first bad line decides: whatever stands after it, it is reported, and the lines before it
have no bad line among them. -/
theorem exists_of_readFrom_badLine
    (h : SavedSheet.readFrom version cells number lines = .error (.badLine k fault)) :
    ∃ before line after, lines = before ++ line :: after ∧ k = number + before.length ∧
      (∀ later, SavedSheet.readFrom version cells number (before ++ line :: later) =
        .error (.badLine k fault)) ∧
      ∀ k' fault', SavedSheet.readFrom version cells number before ≠
        .error (.badLine k' fault') := by
  induction lines generalizing version cells number with
  | nil => cases version <;> cases h
  | cons line rest ih =>
    -- either this line is the one, or the reading goes on as if it were not there
    rcases readFrom_cons_cases version cells number line with
      ⟨fault', hbad⟩ | ⟨version', cells', hgood⟩
    · rw [hbad] at h
      obtain ⟨rfl, rfl⟩ := SheetFileError.badLine.inj (Except.error.inj h)
      refine ⟨[], line, rest, rfl, rfl, hbad, ?_⟩
      intro k' fault'' hnil
      cases version <;> cases hnil
    · rw [hgood] at h
      obtain ⟨before, bad, after, rfl, rfl, hlater, hbefore⟩ := ih h
      refine ⟨line :: before, bad, after, rfl, ?_, fun later => ?_, fun k' fault' => ?_⟩
      · rw [List.length_cons]
        omega
      · rw [List.cons_append, hgood]
        exact hlater later
      · rw [hgood]
        exact hbefore k' fault'

theorem readFrom_some_ne_missingVersion {tag : String} :
    SavedSheet.readFrom (some tag) cells number lines ≠ .error .missingVersion := by
  induction lines generalizing cells number with
  | nil => intro h; cases h
  | cons line rest ih =>
    rw [SavedSheet.readFrom]
    cases SheetLine.read line with
    | error fault => intro h; cases h
    | ok said =>
      cases said with
      | blank => exact ih
      | version tag' => intro h; cases h
      | cell name input => exact ih

/-- The version is missing exactly if all lines that count are cells. -/
theorem readFrom_eq_missingVersion_iff :
    SavedSheet.readFrom none cells number lines = .error .missingVersion ↔
      ∀ entry ∈ numbered number lines,
        ¬ IsAttribute entry.1 ∧ ∃ name input, IsCellLine entry.1 name input := by
  induction lines generalizing cells number with
  | nil => exact iff_of_true rfl (by simp [numbered])
  | cons line rest ih =>
    by_cases hpassed : IsPassedOver line
    · rw [SavedSheet.readFrom, read_of_isPassedOver hpassed, numbered_of_isPassedOver hpassed]
      exact ih
    -- a line that counts is that of a cell exactly if it is read as one
    have hcell : (¬ IsAttribute line ∧ ∃ name input, IsCellLine line name input) ↔
        ∃ name input, SheetLine.read line = .ok (.cell name input) := by
      simp only [read_eq_cell_iff, hpassed, not_false_eq_true, true_and, exists_and_left]
    rw [numbered_of_not_isPassedOver hpassed, List.forall_mem_cons, hcell, SavedSheet.readFrom]
    cases hread : SheetLine.read line with
    | error fault => simp
    | ok said =>
      cases said with
      | blank => exact absurd (read_eq_blank_iff.1 hread) hpassed
      | cell name input =>
        refine ih.trans (and_iff_right ⟨name, input, rfl⟩).symm
      | version tag =>
        -- a version that is met is good or bad, and in neither case missing
        refine iff_of_false ?_ ?_
        · intro h
          dsimp only at h
          split at h
          · cases h
          split at h
          · cases h
          cases tag with
          | none => cases h
          | some tag => exact readFrom_some_ne_missingVersion h
        · rintro ⟨⟨_, _, h⟩, -⟩
          cases h

end Faults

/-! ### The lines of a text -/

/-- The lines of a text.  A line feed at the very end begins no further line. -/
def linesOf (text : String) : List (List Char) :=
  let lines := splitLines text.toList
  if lines.getLast? = some [] then lines.dropLast else lines

/-- Lines that differ at most in the blanks around them. -/
def SameLines (lines lines' : List (List Char)) : Prop :=
  lines.map Text.trim = lines'.map Text.trim

section Texts

variable {lines lines' : List (List Char)} {cells : List SavedCell} {number : Nat}
  {version : Option String}

/-- Blanks around lines do not count. -/
theorem SameLines.readFrom_eq (h : SameLines lines lines') :
    SavedSheet.readFrom version cells number lines =
      SavedSheet.readFrom version cells number lines' := by
  induction lines generalizing lines' version cells number with
  | nil =>
    obtain rfl := List.map_eq_nil_iff.1 h.symm
    rfl
  | cons line rest ih =>
    obtain ⟨line', rest', rfl, hline, hrest⟩ := List.map_eq_cons_iff.1 h.symm
    have hread : SheetLine.read line = SheetLine.read line' := by
      rw [SheetLine.read, SheetLine.read, hline]
    have hsame : SameLines rest rest' := hrest.symm
    simp only [SavedSheet.readFrom, hread, ih hsame]

theorem SameLines.append_right (h : SameLines lines lines') (later : List (List Char)) :
    SameLines (lines ++ later) (lines' ++ later) := by
  rw [SameLines, List.map_append, List.map_append, h]

/-- An empty last line makes no difference. -/
theorem readFrom_concat_nil : SavedSheet.readFrom version cells number (lines ++ [[]]) =
    SavedSheet.readFrom version cells number lines := by
  induction lines generalizing version cells number with
  | nil => rfl
  | cons line rest ih =>
    rcases readFrom_cons_cases version cells number line with
      ⟨fault, hbad⟩ | ⟨version', cells', hgood⟩
    · rw [List.cons_append, hbad, hbad]
    · rw [List.cons_append, hgood, hgood, ih]

theorem read_eq_readFrom_linesOf (text : String) :
    SavedSheet.read text = SavedSheet.readFrom none [] 1 (linesOf text) := by
  rw [SavedSheet.read, linesOf]
  -- a line feed at the end leaves an empty line behind it, and nothing else does
  by_cases hlast : (splitLines text.toList).getLast? = some []
  · simp only [hlast, if_true]
    conv_lhs => rw [← List.dropLast_append_getLast? _ hlast]
    exact readFrom_concat_nil
  · simp only [hlast, if_false]

end Texts

/-- The format of a sheet file.  A text is read exactly if its lines make a sheet, and then as that
sheet.  If it has a bad line, the first one is reported: every text with the same lines up to that
one, blanks around them apart, is refused with the same report, and the lines before it alone have
no bad line.  A version is missing only where all lines that count are cells. -/
theorem read_format (text : String) :
    (∀ sheet, SavedSheet.read text = .ok sheet ↔ Makes (linesOf text) sheet) ∧
    (∀ k fault, SavedSheet.read text = .error (.badLine k fault) →
      1 ≤ k ∧ k ≤ (linesOf text).length ∧
      (∀ text', SameLines ((linesOf text').take k) ((linesOf text).take k) →
        SavedSheet.read text' = .error (.badLine k fault)) ∧
      ∀ text', SameLines (linesOf text') ((linesOf text).take (k - 1)) →
        ∀ k' fault', SavedSheet.read text' ≠ .error (.badLine k' fault')) ∧
    (SavedSheet.read text = .error .missingVersion ↔ ∀ entry ∈ numbered 1 (linesOf text),
      ¬ IsAttribute entry.1 ∧ ∃ name input, IsCellLine entry.1 name input) := by
  refine ⟨fun sheet => ?_, fun k fault h => ?_, ?_⟩
  · rw [read_eq_readFrom_linesOf]
    exact readFrom_none_eq_ok_iff
  · rw [read_eq_readFrom_linesOf] at h
    obtain ⟨before, line, after, hlines, hk, hlater, hbefore⟩ := exists_of_readFrom_badLine h
    have htake : (linesOf text).take k = before ++ [line] := by
      rw [hlines, List.append_cons, List.take_left' (by simp; omega)]
    have htake' : (linesOf text).take (k - 1) = before := by
      rw [hlines, List.take_left' (by omega)]
    refine ⟨by omega, ?_, fun text' hsame => ?_, fun text' hsame k' fault' => ?_⟩
    · rw [hlines, List.length_append, List.length_cons]
      omega
    · -- the lines that follow in the other text have no part in it
      have hlong : SameLines (linesOf text')
          (before ++ line :: (linesOf text').drop k) := by
        rw [htake] at hsame
        conv_lhs => rw [← List.take_append_drop k (linesOf text')]
        rw [List.append_cons]
        exact hsame.append_right _
      rw [read_eq_readFrom_linesOf, hlong.readFrom_eq]
      exact hlater _
    · rw [htake'] at hsame
      rw [read_eq_readFrom_linesOf, hsame.readFrom_eq]
      exact hbefore k' fault'
  · rw [read_eq_readFrom_linesOf]
    exact readFrom_eq_missingVersion_iff

/-- Two lines that make no sheet, for the second one comes too late, and a longer text that starts
with them; and a sheet whose cells stand on its third and its last line. -/
theorem read_format_lateVersion :
    SavedSheet.read "a: =b\n@version: \"1\"" = .error (.badLine 2 .lateVersion) ∧
      SavedSheet.read " a: =b\r\n@version: \"1\"\t\nno cell\n" =
        .error (.badLine 2 .lateVersion) ∧
      Makes (linesOf "# sheet\n@version: \"1\"\na: =b\n\nb: \"\\\"\"\n")
        ⟨"1", [⟨3, "a", "=b"⟩, ⟨5, "b", "\""⟩]⟩ := by
  have hlate : SavedSheet.read "a: =b\n@version: \"1\"" = .error (.badLine 2 .lateVersion) := by
    cbv
  have hread : SavedSheet.read "# sheet\n@version: \"1\"\na: =b\n\nb: \"\\\"\"\n" =
      .ok ⟨"1", [⟨3, "a", "=b"⟩, ⟨5, "b", "\""⟩]⟩ := by
    cbv
  have hsame : SameLines ((linesOf " a: =b\r\n@version: \"1\"\t\nno cell\n").take 2)
      ((linesOf "a: =b\n@version: \"1\"").take 2) := by
    rw [SameLines]
    decide +kernel
  obtain ⟨-, -, hlonger, -⟩ := (read_format "a: =b\n@version: \"1\"").2.1 2 _ hlate
  exact ⟨hlate, hlonger _ hsame, ((read_format _).1 _).1 hread⟩

end FormulaSheet.SheetFile
