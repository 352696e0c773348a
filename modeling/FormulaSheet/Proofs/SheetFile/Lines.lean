/-
Sheet files line by line.

Comments may stand anywhere in a sheet file, the version before all cells.  Each line that is no
comment and no version is an entry, a name and an input; where it stands shows in the number of the
line alone.  So a file whose lines after the version stand in another order is a sheet file again,
with the same entries in that order.

* **`fileOf`**, **`splitLines_intercalate`** — the file of some lines, which are found in it again;
* **`IsSheet`** — the lines of a sheet file;
* **`entriesOf`** — what its lines enter;
* **`exists_read`** — a sheet file is read as its version and its entries.
-/
import FormulaSheet.Proofs.Document.Entering
import FormulaSheet.Proofs.SheetFile.ReadBack

namespace FormulaSheet.SheetFile

/-- The file of some lines. -/
def fileOf (lines : List (List Char)) : String :=
  String.ofList (['\n'].intercalate lines)

theorem splitLines_eq_singleton {line : List Char} (hline : '\n' ∉ line) :
    splitLines line = [line] := by
  induction line with
  | nil => rfl
  | cons c rest ih =>
    have hc : c ≠ '\n' := fun heq => hline (heq ▸ .head _)
    exact splitLines_cons hc (ih fun hmem => hline (.tail _ hmem))

/-- The lines of a file are found in it again. -/
theorem splitLines_intercalate {lines : List (List Char)} (hne : lines ≠ [])
    (hlines : ∀ l ∈ lines, '\n' ∉ l) : splitLines (['\n'].intercalate lines) = lines := by
  induction lines with
  | nil => exact absurd rfl hne
  | cons line rest ih =>
    cases rest with
    | nil =>
      -- no line feed stands behind the last line
      rw [List.intercalate_singleton]
      exact splitLines_eq_singleton (hlines line (.head _))
    | cons next rest =>
      rw [List.intercalate_cons_cons, List.append_assoc, List.singleton_append,
        splitLines_append_newline (hlines line (.head _)),
        ih (by simp) fun l hl => hlines l (.tail _ hl)]

/-- The name and the input that a line enters, if it is the line of a cell. -/
def entered? (line : List Char) : Option (String × String) :=
  match SheetLine.read line with
  | .ok (.cell name input) => some (name, input)
  | _ => none

/-- What some lines enter. -/
def entriesOf (lines : List (List Char)) : List (String × String) :=
  lines.filterMap entered?

/-- The lines of a sheet file: comments and empty lines, the version, and then cells with comments
and empty lines among them. -/
structure IsSheet (version : String) (before : List (List Char)) (versionLine : List Char)
    (lines : List (List Char)) : Prop where
  newline : ∀ l ∈ before ++ versionLine :: lines, '\n' ∉ l
  before : ∀ l ∈ before, SheetLine.read l = .ok .blank
  version : SheetLine.read versionLine = .ok (.version (some version))
  cells : ∀ l ∈ lines, SheetLine.read l = .ok .blank ∨
    ∃ name input, SheetLine.read l = .ok (.cell name input)

section Reading

variable {version : String} {before lines lines' : List (List Char)} {versionLine : List Char}

/-- The lines after the version may stand in any order. -/
theorem IsSheet.perm (h : IsSheet version before versionLine lines) (hperm : lines'.Perm lines) :
    IsSheet version before versionLine lines' where
  newline l hl := h.newline l (((hperm.cons versionLine).append_left before).mem_iff.1 hl)
  before := h.before
  version := h.version
  cells l hl := h.cells l (hperm.mem_iff.1 hl)

theorem readFrom_blanks (hbefore : ∀ l ∈ before, SheetLine.read l = .ok .blank)
    (version : Option String) (cells : List SavedCell) (number : Nat) :
    SavedSheet.readFrom version cells number (before ++ lines) =
      SavedSheet.readFrom version cells (number + before.length) lines := by
  induction before generalizing number with
  | nil => rfl
  | cons line rest ih =>
    rw [List.cons_append, SavedSheet.readFrom, hbefore line (.head _)]
    dsimp only
    rw [ih (fun l hl => hbefore l (.tail _ hl)), List.length_cons]
    congr 1
    omega

/-- After the version the lines are read as what they enter. -/
theorem exists_readFrom (hcells : ∀ l ∈ lines, SheetLine.read l = .ok .blank ∨
      ∃ name input, SheetLine.read l = .ok (.cell name input))
    (version : String) (cells : List SavedCell) (number : Nat) :
    ∃ later, SavedSheet.readFrom (some version) cells number lines =
        .ok ⟨version, cells.reverse ++ later⟩ ∧ later.map SavedCell.entry = entriesOf lines := by
  induction lines generalizing cells number with
  | nil => exact ⟨[], by simp [SavedSheet.readFrom], rfl⟩
  | cons line rest ih =>
    have hrest := ih fun l hl => hcells l (.tail _ hl)
    rcases hcells line (.head _) with hblank | ⟨name, input, hcell⟩
    · obtain ⟨later, hread, hentries⟩ := hrest cells (number + 1)
      have hnone : entered? line = none := by rw [entered?, hblank]
      refine ⟨later, ?_, ?_⟩
      · rw [SavedSheet.readFrom, hblank]
        exact hread
      · rw [hentries, entriesOf, entriesOf, List.filterMap_cons_none hnone]
    · obtain ⟨later, hread, hentries⟩ := hrest (⟨number, name, input⟩ :: cells) (number + 1)
      have hsome : entered? line = some (name, input) := by rw [entered?, hcell]
      refine ⟨⟨number, name, input⟩ :: later, ?_, ?_⟩
      · rw [SavedSheet.readFrom, hcell]
        dsimp only
        rw [hread, List.reverse_cons, List.append_assoc, List.singleton_append]
      · rw [List.map_cons, hentries, entriesOf, entriesOf, List.filterMap_cons_some hsome]
        rfl

/-- A sheet file is read as its version and what its lines enter. -/
theorem exists_read (h : IsSheet version before versionLine lines) :
    ∃ cells, SavedSheet.read (fileOf (before ++ versionLine :: lines)) = .ok ⟨version, cells⟩ ∧
      cells.map SavedCell.entry = entriesOf lines := by
  -- the lines after the version start two behind the last of those before it
  obtain ⟨cells, hread, hentries⟩ := exists_readFrom h.cells version [] (before.length + 2)
  refine ⟨cells, ?_, hentries⟩
  rw [SavedSheet.read, fileOf, String.toList_ofList, splitLines_intercalate (by simp) h.newline,
    readFrom_blanks h.before, SavedSheet.readFrom, h.version]
  dsimp only
  have hnumber : 1 + before.length + 1 = before.length + 2 := by omega
  rw [hnumber]
  exact hread

end Reading

end FormulaSheet.SheetFile
