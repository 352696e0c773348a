/-
The layout of a sheet file.

Blanks at the start and the end of a line and on both sides of its first colon do not count, and
neither do lines that are blank or comments, nor how lines end.  A text that is laid out in another
way is read as the same version and the same cells, or refused for the same reason; only the numbers
of lines move, by the lines that were inserted before them.

* **`SameButBlanks`**, **`Change`**, **`Changes`** — texts that differ in their layout, and where
  their lines are found;
* **`ReadAlike`** — lines in which the readers find the same;
* **`Aligned`** — lines that are read alike one after the other, but for some that are passed over;
* **`Aligned.readFrom_eq`**, **`Aligned.readVersionFrom_eq`** — whatever the first lines are read
  as, the others are read as, too;
* **`read_of_changes`** — all of this for texts.

What stands in quotes is not touched by any of this, for a colon comes before it, and a quote is no
blank.
-/
import FormulaSheet.Proofs.SheetFile.Format

namespace FormulaSheet

/-! ### Moved lines -/

/-- A cell that stands on another line. -/
def SavedCell.moved (move : Nat → Nat) (cell : SavedCell) : SavedCell :=
  { cell with line := move cell.line }

/-- A sheet whose cells stand on other lines. -/
def SavedSheet.moved (move : Nat → Nat) (sheet : SavedSheet) : SavedSheet :=
  { sheet with cells := sheet.cells.map (SavedCell.moved move) }

/-- The same fault, on another line. -/
def SheetFileError.moved (move : Nat → Nat) : SheetFileError → SheetFileError
  | badLine line fault => badLine (move line) fault
  | missingVersion => missingVersion

/-- What a sheet file is read as when its lines are moved. -/
def SavedSheet.readMoved (move : Nat → Nat) (read : Except SheetFileError SavedSheet) :
    Except SheetFileError SavedSheet :=
  (read.map (SavedSheet.moved move)).mapError (SheetFileError.moved move)

namespace SheetFile

open Text (trim)

/-! ### Changes of layout -/

/-- Lines that differ at most in blanks: those at the start and the end, or those on either side of
their first colons. -/
inductive SameButBlanks (line line' : List Char) : Prop
  | around (h : trim line = trim line')
  | atColon {key key' value value' : List Char} (hline : line = key ++ ':' :: value)
      (hline' : line' = key' ++ ':' :: value') (hcolon : ':' ∉ key) (hcolon' : ':' ∉ key')
      (hkey : trim key = trim key') (hvalue : trim value = trim value')

/-- Whole lines, each with its line feed. -/
def joined (lines : List (List Char)) : List Char :=
  lines.flatMap (· ++ ['\n'])

/-- One change of the layout of a text, and where its lines are found after it. -/
inductive Change : List Char → List Char → (Nat → Nat) → Prop
  /-- Blank lines and comments are inserted after some whole lines. -/
  | insert {before inserted : List (List Char)} (after : List Char)
      (hbefore : ∀ l ∈ before, '\n' ∉ l) (hinserted : ∀ l ∈ inserted, '\n' ∉ l ∧ IsPassedOver l) :
      Change (joined before ++ after) (joined before ++ (joined inserted ++ after))
        fun k => if k ≤ before.length then k else k + inserted.length
  /-- The blanks in one line are changed. -/
  | blanks {before : List (List Char)} {line line' after : List Char}
      (hbefore : ∀ l ∈ before, '\n' ∉ l) (hline : '\n' ∉ line) (hline' : '\n' ∉ line')
      (hafter : after.head? = none ∨ after.head? = some '\n') (h : SameButBlanks line line') :
      Change (joined before ++ (line ++ after)) (joined before ++ (line' ++ after)) id
  /-- A last line feed is added. -/
  | addFinal (text : List Char) : Change text (text ++ ['\n']) id
  /-- The last line feed is dropped. -/
  | dropFinal (text : List Char) : Change (text ++ ['\n']) text id
  /-- Every line feed is replaced by a carriage return and a line feed. -/
  | carriageReturns (text : List Char) :
      Change text (text.flatMap fun c => if c = '\n' then ['\r', '\n'] else [c]) id

/-- Changes of layout, one after the other. -/
inductive Changes (text : List Char) : List Char → (Nat → Nat) → Prop
  | refl : Changes text text id
  | tail {text' text'' : List Char} {move move' : Nat → Nat} (h : Changes text text' move)
      (hchange : Change text' text'' move') : Changes text text'' (move' ∘ move)

theorem colon_not_mem_of_blank {blanks : List Char}
    (hblanks : ∀ c ∈ blanks, Text.isBlank c = true) : ':' ∉ blanks := by
  intro hmem
  have hblank := hblanks ':' hmem
  revert hblank
  decide

/-- Blanks may be added at the start and the end of a line, and on both sides of its first colon. -/
theorem SameButBlanks.pad {start before after stop key : List Char}
    (hstart : ∀ c ∈ start, Text.isBlank c = true) (hbefore : ∀ c ∈ before, Text.isBlank c = true)
    (hafter : ∀ c ∈ after, Text.isBlank c = true) (hstop : ∀ c ∈ stop, Text.isBlank c = true)
    (hcolon : ':' ∉ key) (value : List Char) :
    SameButBlanks (key ++ ':' :: value)
      ((start ++ (key ++ before)) ++ ':' :: (after ++ (value ++ stop))) := by
  refine .atColon rfl rfl hcolon ?_ ?_ ?_
  -- no blank is a colon, so the first colon is still the one behind the key
  · simp only [List.mem_append, not_or]
    exact ⟨colon_not_mem_of_blank hstart, hcolon, colon_not_mem_of_blank hbefore⟩
  · rw [Text.trim_append_of_blank hstart, Text.trim_append_blanks hbefore]
  · rw [Text.trim_append_of_blank hafter, Text.trim_append_blanks hstop]

/-! ### Lines that are read alike -/

/-- Lines in which the readers find the same: lines that are passed over, attributes that are cut
alike, or other lines that are. -/
inductive ReadAlike (line line' : List Char) : Prop
  | passedOver (h : IsPassedOver line) (h' : IsPassedOver line')
  | marked {entry entry' : List Char} (h : trim line = '@' :: entry)
      (h' : trim line' = '@' :: entry') (hcut : splitColon entry = splitColon entry')
  | plain (hpassed : ¬ IsPassedOver line) (hpassed' : ¬ IsPassedOver line')
      (hattribute : ¬ IsAttribute line) (hattribute' : ¬ IsAttribute line')
      (hcut : splitColon (trim line) = splitColon (trim line'))

section Lines

variable {line line' key key' value value' : List Char}

theorem ReadAlike.of_trim_eq (h : trim line = trim line') : ReadAlike line line' := by
  have hpassed : IsPassedOver line' ↔ IsPassedOver line := by
    rw [IsPassedOver, IsPassedOver, h]
  have hattribute : IsAttribute line' ↔ IsAttribute line := by
    rw [IsAttribute, IsAttribute, h]
  by_cases hp : IsPassedOver line
  · exact .passedOver hp (hpassed.2 hp)
  by_cases ha : IsAttribute line
  · obtain ⟨entry, hentry⟩ := ha
    exact .marked hentry (h.symm.trans hentry) rfl
  · exact .plain hp (mt hpassed.1 hp) ha (mt hattribute.1 ha) (by rw [h])

theorem trim_append_colon (key value : List Char) :
    trim (key ++ ':' :: value) = Text.trimStart key ++ ':' :: Text.trimEnd value :=
  Text.trim_append_cons (by decide) key value

/-- A line with a colon starts as what stands before the colon. -/
theorem exists_trim_append_colon_iff {c : Char} (hc : c ≠ ':') (key value : List Char) :
    (∃ rest, trim (key ++ ':' :: value) = c :: rest) ↔ (trim key).head? = some c := by
  rw [trim_append_colon, Text.head?_trim]
  cases Text.trimStart key with
  | nil => simp [hc.symm]
  | cons d rest => simp

theorem isPassedOver_append_colon_iff (key value : List Char) :
    IsPassedOver (key ++ ':' :: value) ↔ (trim key).head? = some '#' := by
  have hne : trim (key ++ ':' :: value) ≠ [] := by
    rw [trim_append_colon]
    simp
  rw [IsPassedOver, or_iff_right hne]
  exact exists_trim_append_colon_iff (by decide) key value

theorem isAttribute_append_colon_iff (key value : List Char) :
    IsAttribute (key ++ ':' :: value) ↔ (trim key).head? = some '@' :=
  exists_trim_append_colon_iff (by decide) key value

theorem splitColon_append (hcolon : ':' ∉ key) (value : List Char) :
    splitColon (key ++ ':' :: value) = .ok (trim key, trim value) :=
  splitColon_eq_ok_iff.2 ⟨key, value, rfl, hcolon, rfl, rfl⟩

/-- When the blanks around a line are cut, it is still cut in the same way at its first colon. -/
theorem splitColon_trim (hcolon : ':' ∉ key) (value : List Char) :
    splitColon (trim (key ++ ':' :: value)) = .ok (trim key, trim value) := by
  have hstart : ':' ∉ Text.trimStart key := by
    intro hmem
    exact hcolon ((List.dropWhile_sublist _).mem hmem)
  rw [trim_append_colon, splitColon_append hstart, Text.trim_trimStart, Text.trim_trimEnd]

theorem exists_entry_of_head? (hcolon : ':' ∉ key) (value : List Char)
    (hhead : (trim key).head? = some '@') :
    ∃ entry, trim (key ++ ':' :: value) = '@' :: entry ∧
      splitColon entry = .ok (trim (trim key).tail, trim value) := by
  rw [Text.head?_trim] at hhead
  obtain ⟨rest, hrest⟩ := List.head?_eq_some_iff.1 hhead
  -- what is left of the key has no colon either
  have hmem : ':' ∉ rest := by
    intro hmem
    have hstart : ':' ∈ Text.trimStart key := hrest ▸ .tail _ hmem
    exact hcolon ((List.dropWhile_sublist _).mem hstart)
  refine ⟨rest ++ ':' :: Text.trimEnd value, ?_, ?_⟩
  · rw [trim_append_colon, hrest]
    rfl
  · rw [splitColon_append hmem, Text.trim_trimEnd, Text.trim_of_trimStart_eq_cons hrest,
      List.tail_cons, Text.trim_trimEnd]

/-- Lines are read alike if their first colons stand between the same, blanks apart. -/
theorem ReadAlike.of_colon (hcolon : ':' ∉ key) (hcolon' : ':' ∉ key')
    (hkey : trim key = trim key') (hvalue : trim value = trim value') :
    ReadAlike (key ++ ':' :: value) (key' ++ ':' :: value') := by
  -- what kind of line it is shows in what stands before its colon
  have hpassed := isPassedOver_append_colon_iff key value
  have hpassed' := isPassedOver_append_colon_iff key' value'
  have hattribute := isAttribute_append_colon_iff key value
  have hattribute' := isAttribute_append_colon_iff key' value'
  rw [← hkey] at hpassed' hattribute'
  by_cases hcomment : (trim key).head? = some '#'
  · exact .passedOver (hpassed.2 hcomment) (hpassed'.2 hcomment)
  by_cases hat : (trim key).head? = some '@'
  · obtain ⟨entry, hentry, hcut⟩ := exists_entry_of_head? hcolon value hat
    obtain ⟨entry', hentry', hcut'⟩ := exists_entry_of_head? hcolon' value' (hkey ▸ hat)
    exact .marked hentry hentry' (by rw [hcut, hcut', hkey, hvalue])
  · refine .plain (mt hpassed.1 hcomment) (mt hpassed'.1 hcomment) (mt hattribute.1 hat)
      (mt hattribute'.1 hat) ?_
    rw [splitColon_trim hcolon, splitColon_trim hcolon', hkey, hvalue]

theorem SameButBlanks.readAlike (h : SameButBlanks line line') : ReadAlike line line' := by
  cases h with
  | around h => exact .of_trim_eq h
  | atColon hline hline' hcolon hcolon' hkey hvalue =>
    rw [hline, hline']
    exact .of_colon hcolon hcolon' hkey hvalue

theorem ReadAlike.read_eq (h : ReadAlike line line') :
    SheetLine.read line = SheetLine.read line' := by
  cases h with
  | passedOver h h' => rw [read_of_isPassedOver h, read_of_isPassedOver h']
  | marked h h' hcut =>
    rw [SheetLine.read, SheetLine.read, h, h']
    show (splitColon _ >>= _) = (splitColon _ >>= _)
    rw [hcut]
  | plain hpassed hpassed' hattribute hattribute' hcut =>
    rw [read_of_plain hpassed hattribute, read_of_plain hpassed' hattribute', hcut]

end Lines

/-! ### Lines one after the other -/

/-- Lines from number `number'` on that are read as those from `number` on are: each is read like
the next one of these, which has moved to its place, or else is passed over, and of these, too, some
may be passed over. -/
inductive Aligned (move : Nat → Nat) : Nat → List (List Char) → Nat → List (List Char) → Prop
  | nil (number number' : Nat) : Aligned move number [] number' []
  | line {number number' : Nat} {line line' : List Char} {rest rest' : List (List Char)}
      (hline : ReadAlike line line') (hmove : move number = number')
      (h : Aligned move (number + 1) rest (number' + 1) rest') :
      Aligned move number (line :: rest) number' (line' :: rest')
  | inserted {number number' : Nat} {line' : List Char} {lines rest' : List (List Char)}
      (hline' : IsPassedOver line') (h : Aligned move number lines (number' + 1) rest') :
      Aligned move number lines number' (line' :: rest')
  | dropped {number number' : Nat} {line : List Char} {rest lines' : List (List Char)}
      (hline : IsPassedOver line) (h : Aligned move (number + 1) rest number' lines') :
      Aligned move number (line :: rest) number' lines'

section Readers

variable {move : Nat → Nat} {number number' : Nat} {lines lines' : List (List Char)}

/-- Whatever the first lines are read as, the others are read as, with the lines moved. -/
theorem Aligned.readFrom_eq (h : Aligned move number lines number' lines')
    (version : Option String) (cells : List SavedCell) :
    SavedSheet.readFrom version (cells.map (SavedCell.moved move)) number' lines' =
      SavedSheet.readMoved move (SavedSheet.readFrom version cells number lines) := by
  induction h generalizing version cells with
  -- the cells that were kept have moved already
  | nil number number' =>
    cases version with
    | none => rfl
    | some version =>
      rw [SavedSheet.readFrom, ← List.map_reverse]
      rfl
  | @line number number' line line' rest rest' hline hmove h ih =>
    rw [SavedSheet.readFrom, SavedSheet.readFrom, hline.read_eq]
    cases SheetLine.read line' with
    | error fault =>
      rw [← hmove]
      rfl
    | ok said =>
      cases said with
      | blank => exact ih version cells
      | cell name input =>
        rw [← hmove] at ih ⊢
        exact ih version (⟨number, name, input⟩ :: cells)
      | version tag =>
        -- where a version may stand depends on neither numbers nor lines
        dsimp only
        rw [List.isEmpty_map, ← hmove]
        by_cases hsecond : version.isSome = true
        · rw [if_pos hsecond, if_pos hsecond]
          rfl
        rw [if_neg hsecond, if_neg hsecond]
        by_cases hlate : (!cells.isEmpty) = true
        · rw [if_pos hlate, if_pos hlate]
          rfl
        rw [if_neg hlate, if_neg hlate]
        cases tag with
        | none => rfl
        | some tag =>
          rw [← hmove] at ih
          exact ih (some tag) cells
  | inserted hline' h ih =>
    rw [SavedSheet.readFrom, read_of_isPassedOver hline']
    exact ih version cells
  | dropped hline h ih =>
    rw [SavedSheet.readFrom, read_of_isPassedOver hline]
    exact ih version cells

theorem readVersionFrom_of_plain {line : List Char} (hpassed : ¬ IsPassedOver line)
    (hattribute : ¬ IsAttribute line) :
    readVersionFrom number (line :: lines) = .error .missingVersion := by
  rw [readVersionFrom, if_neg (mt isSkipped_trim_iff.1 hpassed)]
  split
  · next entry hentry => exact absurd ⟨entry, hentry⟩ hattribute
  · rfl

/-- The version that is found in the first lines is found in the others. -/
theorem Aligned.readVersionFrom_eq (h : Aligned move number lines number' lines') :
    readVersionFrom number' lines' =
      (readVersionFrom number lines).mapError (SheetFileError.moved move) := by
  induction h with
  | nil number number' => rfl
  | @line number number' line line' rest rest' hline hmove h ih =>
    cases hline with
    | passedOver hline hline' =>
      rw [readVersionFrom_passedOver hline, readVersionFrom_passedOver hline']
      exact ih
    | @marked entry entry' hline hline' hcut =>
      rw [readVersionFrom, readVersionFrom, hline, hline', if_neg (by simp [isSkipped]),
        if_neg (by simp [isSkipped])]
      simp only [hcut]
      cases splitColon entry' with
      | error fault =>
        rw [← hmove]
        rfl
      | ok cut =>
        obtain ⟨key, value⟩ := cut
        dsimp only
        -- another attribute is passed by here, though the reader of sheets refuses it
        by_cases hkey : key = "version".toList
        · rw [if_pos hkey, if_pos hkey]
          cases unquote? value with
          | none =>
            rw [← hmove]
            rfl
          | some tag => rfl
        · rw [if_neg hkey, if_neg hkey]
          exact ih
    | plain hpassed hpassed' hattribute hattribute' hcut =>
      rw [readVersionFrom_of_plain hpassed hattribute,
        readVersionFrom_of_plain hpassed' hattribute']
      rfl
  | inserted hline' h ih =>
    rw [readVersionFrom_passedOver hline']
    exact ih
  | dropped hline h ih =>
    rw [readVersionFrom_passedOver hline]
    exact ih

end Readers

/-! ### Lines of a text -/

section Texts

variable {move : Nat → Nat} {number number' : Nat} {lines lines' before inserted : List (List Char)}
  {text line : List Char}

theorem Aligned.append_left (hmove : ∀ k, k < number + before.length → move k = k)
    (h : Aligned move (number + before.length) lines (number + before.length) lines') :
    Aligned move number (before ++ lines) number (before ++ lines') := by
  induction before generalizing number with
  | nil => exact h
  | cons line rest ih =>
    have hlength : number + 1 + rest.length = number + (line :: rest).length := by
      rw [List.length_cons]
      omega
    refine .line (.of_trim_eq rfl) (hmove number (by simp)) (ih ?_ ?_)
    · intro k hk
      exact hmove k (by omega)
    · rw [hlength]
      exact h

theorem Aligned.shift (d : Nat) (hmove : ∀ k, number ≤ k → move k = k + d) :
    Aligned move number lines (number + d) lines := by
  induction lines generalizing number with
  | nil => exact .nil _ _
  | cons line rest ih =>
    refine .line (.of_trim_eq rfl) (hmove number (Nat.le_refl _)) ?_
    have hnext : number + d + 1 = number + 1 + d := by omega
    rw [hnext]
    refine ih ?_
    intro k hk
    exact hmove k (by omega)

/-- Before lines that are read alike, any number of lines may be inserted. -/
theorem Aligned.insert (hinserted : ∀ l ∈ inserted, IsPassedOver l)
    (h : Aligned move number lines (number' + inserted.length) lines') :
    Aligned move number lines number' (inserted ++ lines') := by
  induction inserted generalizing number' with
  | nil => exact h
  | cons line rest ih =>
    have hlength : number' + 1 + rest.length = number' + (line :: rest).length := by
      rw [List.length_cons]
      omega
    refine .inserted (hinserted line (.head _)) (ih ?_ ?_)
    · intro l hl
      exact hinserted l (.tail _ hl)
    · rw [hlength]
      exact h

theorem Aligned.of_forall₂ (h : List.Forall₂ ReadAlike lines lines') :
    Aligned id number lines number lines' := by
  induction h generalizing number with
  | nil => exact .nil _ _
  | cons hline hrest ih => exact .line hline rfl ih

theorem exists_splitLines_eq_cons (text : List Char) :
    ∃ line rest, splitLines text = line :: rest := by
  induction text with
  | nil => exact ⟨[], [], rfl⟩
  | cons c text ih =>
    obtain ⟨line, rest, h⟩ := ih
    by_cases hc : c = '\n'
    · rw [hc]
      exact ⟨[], _, splitLines_cons_newline text⟩
    · exact ⟨c :: line, rest, splitLines_cons hc h⟩

/-- After a last line feed, one more line is found, which is empty. -/
theorem splitLines_concat_newline (text : List Char) :
    splitLines (text ++ ['\n']) = splitLines text ++ [[]] := by
  induction text with
  | nil => rfl
  | cons c text ih =>
    by_cases hc : c = '\n'
    · rw [hc, List.cons_append, splitLines_cons_newline, splitLines_cons_newline, ih]
      rfl
    · obtain ⟨line, rest, h⟩ := exists_splitLines_eq_cons text
      rw [h] at ih
      rw [List.cons_append, splitLines_cons hc ih, splitLines_cons hc h]
      rfl

/-- What follows a line is cut into the same lines whatever that line is. -/
theorem exists_splitLines_append {after : List Char}
    (hafter : after.head? = none ∨ after.head? = some '\n') :
    ∃ later, ∀ line, '\n' ∉ line → splitLines (line ++ after) = line :: later := by
  cases after with
  | nil =>
    refine ⟨[], ?_⟩
    intro line hline
    rw [List.append_nil]
    exact splitLines_eq_singleton hline
  | cons c rest =>
    -- the line ends with a line feed, or with the text
    obtain rfl : c = '\n' := by simpa using hafter
    exact ⟨splitLines rest, fun line hline => splitLines_append_newline hline rest⟩

/-- A line feed is replaced by a carriage return and a line feed. -/
theorem forall₂_carriageReturns (text : List Char) :
    List.Forall₂ (fun line line' => line' = line ∨ line' = line ++ ['\r']) (splitLines text)
      (splitLines (text.flatMap fun c => if c = '\n' then ['\r', '\n'] else [c])) := by
  induction text with
  | nil => exact .cons (.inl rfl) .nil
  | cons c text ih =>
    rw [List.flatMap_cons]
    by_cases hc : c = '\n'
    · have hreturn : '\n' ∉ ['\r'] := by decide
      have hcut : ∀ rest, splitLines (['\r', '\n'] ++ rest) = ['\r'] :: splitLines rest :=
        splitLines_append_newline hreturn
      rw [if_pos hc, hc, splitLines_cons_newline, hcut]
      exact .cons (.inr rfl) ih
    · -- the character stands at the start of the first line in both texts
      rw [if_neg hc, List.singleton_append]
      obtain ⟨line, rest, h⟩ := exists_splitLines_eq_cons text
      rw [h] at ih
      cases hcut : splitLines (text.flatMap fun c => if c = '\n' then ['\r', '\n'] else [c]) with
      | nil =>
        rw [hcut] at ih
        cases ih
      | cons line' rest' =>
        rw [hcut] at ih
        cases ih with
        | cons hline hrest =>
          rw [splitLines_cons hc h, splitLines_cons hc hcut]
          refine .cons ?_ hrest
          rcases hline with rfl | rfl
          · exact .inl rfl
          · exact .inr rfl

/-- One change of layout leaves lines that are read alike. -/
theorem Change.aligned {text text' : List Char} (h : Change text text' move) :
    Aligned move 1 (splitLines text) 1 (splitLines text') := by
  cases h with
  | @insert before inserted after hbefore hinserted =>
    have hnewline : ∀ l ∈ inserted, '\n' ∉ l := by
      intro l hl
      exact (hinserted l hl).1
    unfold joined
    rw [splitLines_flatMap_append hbefore, splitLines_flatMap_append hbefore,
      splitLines_flatMap_append hnewline]
    refine .append_left ?_ (.insert ?_ (.shift _ ?_))
    -- lines before the inserted ones stay, and the lines behind them all move as far
    · intro k hk
      exact if_pos (by omega)
    · intro l hl
      exact (hinserted l hl).2
    · intro k hk
      exact if_neg (by omega)
  | @blanks before line line' after hbefore hline hline' hafter h =>
    obtain ⟨later, hlater⟩ := exists_splitLines_append hafter
    unfold joined
    rw [splitLines_flatMap_append hbefore, splitLines_flatMap_append hbefore, hlater line hline,
      hlater line' hline']
    refine .append_left (fun _ _ => rfl) (.line h.readAlike rfl (.of_forall₂ ?_))
    exact List.forall₂_same.2 fun _ _ => .of_trim_eq rfl
  | addFinal text =>
    -- the line that is added is empty and passed over
    have hend : ∀ n, Aligned id n [] n [[]] := fun n => .inserted (.inl rfl) (.nil n (n + 1))
    have hlines := (hend (1 + (splitLines text).length)).append_left fun _ _ => rfl
    rw [List.append_nil] at hlines
    rw [splitLines_concat_newline]
    exact hlines
  | dropFinal =>
    have hend : ∀ n, Aligned id n [[]] n [] := fun n => .dropped (.inl rfl) (.nil (n + 1) n)
    have hlines := (hend (1 + (splitLines text').length)).append_left fun _ _ => rfl
    rw [List.append_nil] at hlines
    rw [splitLines_concat_newline]
    exact hlines
  | carriageReturns text =>
    refine .of_forall₂ ((forall₂_carriageReturns text).imp ?_)
    rintro line line' (rfl | rfl)
    · exact .of_trim_eq rfl
    · -- a carriage return at the end of a line is a blank
      have hreturn : ∀ c ∈ ['\r'], Text.isBlank c = true :=
        List.forall_mem_singleton.2 (by decide)
      exact .of_trim_eq (Text.trim_append_blanks hreturn line).symm

end Texts

/-! ### Texts -/

section Texts

variable {move move' : Nat → Nat}

theorem readMoved_id (read : Except SheetFileError SavedSheet) :
    SavedSheet.readMoved id read = read := by
  cases read with
  | error e => cases e <;> rfl
  | ok sheet =>
    have hcells : sheet.cells.map (SavedCell.moved id) = sheet.cells := List.map_id _
    show Except.ok { sheet with cells := sheet.cells.map (SavedCell.moved id) } = _
    rw [hcells]

theorem readMoved_readMoved (read : Except SheetFileError SavedSheet) :
    SavedSheet.readMoved move' (SavedSheet.readMoved move read) =
      SavedSheet.readMoved (move' ∘ move) read := by
  cases read with
  | error e => cases e <;> rfl
  | ok sheet =>
    have hcells : (sheet.cells.map (SavedCell.moved move)).map (SavedCell.moved move') =
        sheet.cells.map (SavedCell.moved (move' ∘ move)) := List.map_map
    -- of a sheet only its cells are moved
    show Except.ok { sheet with cells := List.map _ (List.map _ sheet.cells) } = _
    rw [hcells]
    rfl

/-- Changes of layout one after the other move what is read, and change nothing else. -/
theorem Changes.readFrom_eq {text text' : List Char} (h : Changes text text' move) :
    SavedSheet.readFrom none [] 1 (splitLines text') =
      SavedSheet.readMoved move (SavedSheet.readFrom none [] 1 (splitLines text)) := by
  induction h with
  | refl => exact (readMoved_id _).symm
  | tail h hchange ih =>
    rw [← readMoved_readMoved, ← ih]
    exact hchange.aligned.readFrom_eq none []

theorem Changes.readVersionFrom_eq {text text' : List Char} (h : Changes text text' move) :
    readVersionFrom 1 (splitLines text') =
      (readVersionFrom 1 (splitLines text)).mapError (SheetFileError.moved move) := by
  induction h with
  | refl =>
    cases readVersionFrom 1 (splitLines text) with
    | error e => cases e <;> rfl
    | ok version => rfl
  | tail h hchange ih =>
    rw [hchange.aligned.readVersionFrom_eq, ih]
    cases readVersionFrom 1 (splitLines text) with
    | error e => cases e <;> rfl
    | ok version => rfl

end Texts

/-- The layout of a sheet file does not matter.  After any changes of layout a file is read as the
same version and the same names and inputs in the same order, or is refused for the same reason, and
the lines that are named are those where the old ones are now found.  So it is for the version
alone. -/
theorem read_of_changes {text text' : String} {move : Nat → Nat}
    (h : Changes text.toList text'.toList move) :
    (∀ sheet, SavedSheet.read text = .ok sheet →
      SavedSheet.read text' = .ok (sheet.moved move)) ∧
    (∀ e, SavedSheet.read text = .error e → SavedSheet.read text' = .error (e.moved move)) ∧
    (∀ version, readVersion text = .ok version → readVersion text' = .ok version) ∧
    ∀ e, readVersion text = .error e → readVersion text' = .error (e.moved move) := by
  have hread : SavedSheet.read text' = SavedSheet.readMoved move (SavedSheet.read text) :=
    h.readFrom_eq
  have hversion : readVersion text' =
      (readVersion text).mapError (SheetFileError.moved move) := h.readVersionFrom_eq
  refine ⟨?_, ?_, ?_, ?_⟩
  · intro sheet hsheet
    rw [hread, hsheet]
    rfl
  · intro e he
    rw [hread, he]
    rfl
  · intro version hfound
    rw [hversion, hfound]
    rfl
  · intro e he
    rw [hversion, he]
    rfl

/-- A comment and an empty line come before the last line, which gets blanks around it and its
colon and then a line feed, and all lines end in a carriage return. -/
theorem read_of_changes_all :
    let text := "@version: \"1\"\na:\" x \""
    let text' := "@version: \"1\"\r\n# note\r\n\r\n a :\t\" x \" \r\n"
    ∃ move, Changes text.toList text'.toList move ∧ move 2 = 4 ∧
      SavedSheet.read text = .ok ⟨"1", [⟨2, "a", " x "⟩]⟩ ∧
      SavedSheet.read text' = .ok ⟨"1", [⟨4, "a", " x "⟩]⟩ ∧ readVersion text' = .ok "1" := by
  have hread : SavedSheet.read "@version: \"1\"\na:\" x \"" = .ok ⟨"1", [⟨2, "a", " x "⟩]⟩ := by
    cbv
  have hversion : readVersion "@version: \"1\"\na:\" x \"" = .ok "1" := by
    cbv
  intro text text'
  let version := "@version: \"1\"".toList
  let note := "# note".toList
  let value := "\" x \"".toList
  let cell := ['a'] ++ ':' :: value
  let spaced := ([' '] ++ (['a'] ++ [' '])) ++ ':' :: (['\t'] ++ (value ++ [' ']))
  let move : Nat → Nat := fun k => if k ≤ 1 then k else k + 2
  have hinsert : Change (joined [version] ++ cell)
      (joined [version] ++ (joined [note, []] ++ cell)) move := by
    refine .insert cell ?_ ?_
    · decide
    · decide
  have hspace : ∀ c ∈ [' '], Text.isBlank c = true := List.forall_mem_singleton.2 (by decide)
  have htab : ∀ c ∈ ['\t'], Text.isBlank c = true := List.forall_mem_singleton.2 (by decide)
  have hpadded : SameButBlanks cell spaced := .pad hspace hspace htab hspace (by decide) value
  have hblanks : Change (joined [version, note, []] ++ (cell ++ []))
      (joined [version, note, []] ++ (spaced ++ [])) id := by
    refine .blanks ?_ ?_ ?_ (.inl rfl) hpadded
    · decide
    · decide
    · decide
  have hchanges : Changes text.toList text'.toList move := by
    have htext : text.toList = joined [version] ++ cell := by decide +kernel
    have htext' : text'.toList = (joined [version, note, []] ++ (spaced ++ []) ++ ['\n']).flatMap
        fun c => if c = '\n' then ['\r', '\n'] else [c] := by decide +kernel
    rw [htext, htext']
    -- the change of blanks finds the inserted lines before it
    exact (((Changes.refl.tail hinsert).tail hblanks).tail (.addFinal _)).tail (.carriageReturns _)
  obtain ⟨hsame, -, hfound, -⟩ := read_of_changes hchanges
  exact ⟨move, hchanges, rfl, hread, hsame _ hread, hfound _ hversion⟩

end SheetFile

end FormulaSheet
