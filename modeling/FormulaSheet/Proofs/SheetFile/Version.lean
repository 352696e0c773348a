/-
The version of a sheet file.

The version of a file is found without reading its cells.  This agrees with reading the whole file:
where the file is a sheet, its version is the one that is found, and where none is found, the file
is no sheet.  It asks for less, too: once the version line is met, nothing after it is looked at.

* **`IsPassedOver`**, **`IsVersionLine`** — the lines that are looked at, up to the version;
* **`readVersionFrom_of_readFrom`** — a file that is read has the version that is found;
* **`readVersion_agrees`** — what is found, for every text.

The two go through the lines with different rules for stopping, but a file that is read as a whole
leaves little room: until it has its version, all of its lines are passed over.  For a cell would
come before the version, and no other attribute is known.
-/
import FormulaSheet.Proofs.SheetFile.Lines

namespace FormulaSheet.SheetFile

/-! ### Lines -/

/-- A line that is passed over: it is blank, or a comment. -/
def IsPassedOver (line : List Char) : Prop :=
  Text.trim line = [] ∨ ∃ comment, Text.trim line = '#' :: comment

/-- A version line: an attribute, `version` before its first colon and a quoted text after it. -/
def IsVersionLine (line : List Char) (tag : String) : Prop :=
  ∃ key value body, Text.trim line = '@' :: (key ++ ':' :: value) ∧ ':' ∉ key ∧
    Text.trim key = "version".toList ∧ Text.trim value = '"' :: (body ++ ['"']) ∧
    StandsFor body tag.toList

theorem isSkipped_trim_iff {line : List Char} :
    isSkipped (Text.trim line) = true ↔ IsPassedOver line := by
  unfold IsPassedOver
  cases Text.trim line with
  | nil => simp [isSkipped]
  | cons first rest => simp [isSkipped]

/-- A version line, by what it is cut into. -/
theorem isVersionLine_iff {line : List Char} {tag : String} :
    IsVersionLine line tag ↔ ∃ entry value, Text.trim line = '@' :: entry ∧
      splitColon entry = .ok ("version".toList, value) ∧ unquote? value = some tag.toList := by
  constructor
  · rintro ⟨key, value, body, hline, hcolon, hkey, hvalue, hbody⟩
    exact ⟨_, _, hline, splitColon_eq_ok_iff.2 ⟨key, value, rfl, hcolon, hkey, hvalue⟩,
      unquote?_eq_some_iff.2 ⟨body, rfl, hbody⟩⟩
  · rintro ⟨entry, value, hline, hentry, hvalue⟩
    obtain ⟨before, after, rfl, hcolon, hbefore, hafter⟩ := splitColon_eq_ok_iff.1 hentry
    obtain ⟨body, rfl, hbody⟩ := unquote?_eq_some_iff.1 hvalue
    exact ⟨before, after, body, hline, hcolon, hbefore, hafter, hbody⟩

/-- What a line can say: nothing, a version, or a cell. -/
theorem read_cases {line : List Char} {said : SheetLine} (h : SheetLine.read line = .ok said) :
    (IsPassedOver line ∧ said = .blank) ∨
      (∃ entry value, Text.trim line = '@' :: entry ∧
        splitColon entry = .ok ("version".toList, value) ∧
        said = .version ((unquote? value).map String.ofList)) ∨
      ∃ name input, said = .cell name input := by
  unfold SheetLine.read SheetLine.readTrimmed at h
  split at h
  · next hskip => exact .inl ⟨isSkipped_trim_iff.1 hskip, (Except.ok.inj h).symm⟩
  split at h
  · next entry hline =>
    obtain ⟨⟨key, value⟩, hsplit, h⟩ := bind_eq_ok_iff.1 h
    dsimp only at h
    split at h
    · next hkey =>
      -- no attribute but the version is known
      subst hkey
      exact .inr (.inl ⟨entry, value, hline, hsplit, (Except.ok.inj h).symm⟩)
    · cases h
  · obtain ⟨⟨name, value⟩, -, h⟩ := bind_eq_ok_iff.1 h
    dsimp only at h
    split at h
    · cases h
    · obtain ⟨input, -, h⟩ := bind_eq_ok_iff.1 h
      exact .inr (.inr ⟨_, _, (Except.ok.inj h).symm⟩)

/-! ### The version alone -/

section Finding

variable {line : List Char} {rest skipped later : List (List Char)} {tag : String} {number : Nat}

theorem readVersionFrom_passedOver (h : IsPassedOver line) :
    readVersionFrom number (line :: rest) = readVersionFrom (number + 1) rest := by
  rw [readVersionFrom, if_pos (isSkipped_trim_iff.2 h)]

theorem readVersionFrom_versionLine (h : IsVersionLine line tag) :
    readVersionFrom number (line :: rest) = .ok tag := by
  obtain ⟨entry, value, hline, hentry, hvalue⟩ := isVersionLine_iff.1 h
  rw [readVersionFrom, hline, if_neg (by simp [isSkipped])]
  simp only [hentry, if_true, hvalue, String.ofList_toList]

/-- Nothing after the first version line is looked at. -/
theorem readVersionFrom_append (hskipped : ∀ l ∈ skipped, IsPassedOver l)
    (hline : IsVersionLine line tag) :
    readVersionFrom number (skipped ++ line :: later) = .ok tag := by
  induction skipped generalizing number with
  | nil => exact readVersionFrom_versionLine hline
  | cons first skipped ih =>
    rw [List.cons_append, readVersionFrom_passedOver (hskipped first (.head _))]
    exact ih fun l hl => hskipped l (.tail _ hl)

end Finding

/-! ### The whole file -/

section Reading

variable {lines : List (List Char)} {cells : List SavedCell} {number : Nat} {sheet : SavedSheet}

theorem version_of_readFrom {version : String}
    (h : SavedSheet.readFrom (some version) cells number lines = .ok sheet) :
    sheet.version = version := by
  induction lines generalizing cells number with
  | nil => exact (congrArg SavedSheet.version (Except.ok.inj h)).symm
  | cons line rest ih =>
    rw [SavedSheet.readFrom] at h
    split at h
    · cases h
    · exact ih h
    · cases h
    · exact ih h

/-- After a cell no version can come any more. -/
theorem readFrom_ne_ok (hcells : cells ≠ []) :
    SavedSheet.readFrom none cells number lines ≠ .ok sheet := by
  induction lines generalizing cells number with
  | nil => nofun
  | cons line rest ih =>
    intro h
    rw [SavedSheet.readFrom] at h
    split at h
    · cases h
    · exact ih hcells h
    · -- a version that comes now is too late
      rw [if_neg (by simp), if_pos (by simpa using hcells)] at h
      cases h
    · exact ih (List.cons_ne_nil _ _) h

/-- A file that is read has the version that is found. -/
theorem readVersionFrom_of_readFrom (h : SavedSheet.readFrom none [] number lines = .ok sheet) :
    readVersionFrom number lines = .ok sheet.version := by
  induction lines generalizing number with
  | nil => cases h
  | cons line rest ih =>
    rw [SavedSheet.readFrom] at h
    cases hline : SheetLine.read line with
    | error fault =>
      rw [hline] at h
      cases h
    | ok said =>
      rw [hline] at h
      rcases read_cases hline with ⟨hpassed, rfl⟩ | ⟨entry, value, htrim, hentry, rfl⟩ |
        ⟨name, input, rfl⟩
      -- until the version every line that lets the reading go on is passed over
      · rw [readVersionFrom_passedOver hpassed]
        exact ih h
      · cases hvalue : unquote? value with
        | none =>
          rw [hvalue] at h
          cases h
        | some tag =>
          rw [hvalue] at h
          rw [version_of_readFrom h]
          refine readVersionFrom_versionLine (isVersionLine_iff.2 ⟨entry, value, htrim, hentry, ?_⟩)
          rw [hvalue, String.toList_ofList]
      · exact absurd h (readFrom_ne_ok (List.cons_ne_nil _ _))

end Reading

/-- The version of a file is found without reading the file: if the file is read as a whole, its
version is the one that is found, so where none is found the file is not read; and if the first line
that is not passed over is a version line, its version is found, whatever comes after it. -/
theorem readVersion_agrees (text : String) :
    (∀ sheet, SavedSheet.read text = .ok sheet → readVersion text = .ok sheet.version) ∧
      (∀ e, readVersion text = .error e → ∃ e', SavedSheet.read text = .error e') ∧
      ∀ skipped line later tag, text = fileOf (skipped ++ line :: later) →
        (∀ l ∈ skipped ++ line :: later, '\n' ∉ l) → (∀ l ∈ skipped, IsPassedOver l) →
        IsVersionLine line tag → readVersion text = .ok tag := by
  have hfound : ∀ sheet, SavedSheet.read text = .ok sheet →
      readVersion text = .ok sheet.version := fun _ h => readVersionFrom_of_readFrom h
  refine ⟨hfound, fun e he => ?_, ?_⟩
  · cases hread : SavedSheet.read text with
    | error e' => exact ⟨e', rfl⟩
    | ok sheet =>
      rw [hfound sheet hread] at he
      cases he
  · rintro skipped line later tag rfl hnewline hskipped hline
    rw [readVersion, fileOf, String.toList_ofList, splitLines_intercalate (by simp) hnewline]
    exact readVersionFrom_append hskipped hline

/-- The version of a file is found though the file is not read. -/
theorem readVersion_agrees_broken :
    readVersion "# sheet\n\t@ version : \"v\\q1\" \nno cell" = .ok "v\\q1" ∧
      SavedSheet.read "# sheet\n\t@ version : \"v\\q1\" \nno cell" =
        .error (.badLine 3 .noColon) := by
  refine ⟨(readVersion_agrees _).2.2 ["# sheet".toList]
    "\t@ version : \"v\\q1\" ".toList ["no cell".toList] _ ?_ ?_ ?_ ?_, ?_⟩
  · decide
  · decide
  · rintro l hl
    obtain rfl := List.mem_singleton.1 hl
    exact .inr ⟨_, rfl⟩
  · exact isVersionLine_iff.2 ⟨_, _, rfl, rfl, rfl⟩
  · cbv

end FormulaSheet.SheetFile
