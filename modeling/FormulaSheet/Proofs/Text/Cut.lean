/-
Cutting a text where a kind of characters ends.

Scanners take characters of one kind from the start of a text.  They find what was written if what
follows it does not start with a character of that kind, or with a blank where blanks are cut.

* **`Stops`**, **`stops_dropWhile`** — a text does not start with a character of a kind;
* **`takeWhile_append_of_stops`**, **`dropWhile_append_of_stops`** — where the cut falls;
* **`trim_eq_self`** — cutting blanks from a text that neither starts nor ends with one;
* **`trim_append_cons`**, **`exists_append_trimStart`**, **`exists_trimEnd_append`** — what cutting
  leaves of other texts;
* **`isVisible`** — the characters of names, numbers and formulas, none of them blank.
-/
import FormulaSheet.Text.Blank
import Mathlib

namespace FormulaSheet.Text

variable {p : Char → Bool} {text rest : List Char}

/-- A text does not start with a character of a kind. -/
def Stops (p : Char → Bool) (text : List Char) : Prop :=
  ∀ c, text.head? = some c → p c = false

theorem stops_nil (p : Char → Bool) : Stops p [] := by
  intro c hc
  cases hc

theorem stops_cons {c : Char} (h : p c = false) : Stops p (c :: rest) := by
  intro d hd
  obtain rfl := Option.some.inj hd
  exact h

theorem Stops.mono {q : Char → Bool} (h : Stops p text) (hpq : ∀ c, p c = false → q c = false) :
    Stops q text :=
  fun c hc => hpq c (h c hc)

theorem Stops.takeWhile (h : Stops p rest) : rest.takeWhile p = [] := by
  cases rest with
  | nil => rfl
  | cons c cs => rw [List.takeWhile_cons_of_neg (by simp [h c rfl])]

theorem Stops.dropWhile (h : Stops p rest) : rest.dropWhile p = rest := by
  cases rest with
  | nil => rfl
  | cons c cs => rw [List.dropWhile_cons_of_neg (by simp [h c rfl])]

/-- What is left when one kind of characters is dropped does not start with one of them. -/
theorem stops_dropWhile (p : Char → Bool) (text : List Char) : Stops p (text.dropWhile p) := by
  intro c hc
  have hhead := List.head?_dropWhile_not p text
  rw [hc] at hhead
  simpa using hhead

theorem takeWhile_append_of_stops (htext : ∀ c ∈ text, p c = true) (hrest : Stops p rest) :
    (text ++ rest).takeWhile p = text := by
  rw [List.takeWhile_append_of_pos htext, hrest.takeWhile, List.append_nil]

theorem dropWhile_append_of_stops (htext : ∀ c ∈ text, p c = true) (hrest : Stops p rest) :
    (text ++ rest).dropWhile p = rest := by
  rw [List.dropWhile_append_of_pos htext, hrest.dropWhile]

theorem trimStart_eq_self (h : Stops isBlank text) : trimStart text = text :=
  h.dropWhile

theorem trim_eq_self (hstart : Stops isBlank text) (hend : Stops isBlank text.reverse) :
    trim text = text := by
  rw [trim, trimStart_eq_self hstart, trimEnd, trimStart_eq_self hend, List.reverse_reverse]

theorem trim_append_of_blank {blanks : List Char} (hblanks : ∀ c ∈ blanks, isBlank c = true)
    (text : List Char) : trim (blanks ++ text) = trim text := by
  rw [trim, trimStart, List.dropWhile_append_of_pos hblanks]
  rfl

theorem trim_cons_blank {c : Char} (hc : isBlank c = true) (text : List Char) :
    trim (c :: text) = trim text :=
  trim_append_of_blank (List.forall_mem_singleton.2 hc) text

theorem trim_append_blanks {blanks : List Char} (hblanks : ∀ c ∈ blanks, isBlank c = true)
    (text : List Char) : trim (text ++ blanks) = trim text := by
  have hend : ∀ rest : List Char, trimEnd (rest ++ blanks) = trimEnd rest := by
    intro rest
    have hreverse : ∀ c ∈ blanks.reverse, isBlank c = true := by
      intro c hc
      exact hblanks c (List.mem_reverse.1 hc)
    rw [trimEnd, List.reverse_append, trimStart, List.dropWhile_append_of_pos hreverse]
    rfl
  rw [trim, trimStart, List.dropWhile_append]
  split
  · next hempty =>
    -- all of the text is blank
    have hstart : trimStart text = [] := List.isEmpty_iff.1 hempty
    have hblank : blanks.dropWhile isBlank = [] := List.dropWhile_eq_nil_iff.2 hblanks
    rw [hblank, trim, hstart]
  · exact hend _

/-- A character that is not blank keeps what stands after it from being cut. -/
theorem trimStart_append_cons {c : Char} (hc : isBlank c = false) (text rest : List Char) :
    trimStart (text ++ c :: rest) = trimStart text ++ c :: rest := by
  induction text with
  | nil => exact List.dropWhile_cons_of_neg (by simp [hc])
  | cons d text ih =>
    by_cases hd : isBlank d = true
    · rw [List.cons_append, trimStart, trimStart, List.dropWhile_cons_of_pos hd,
        List.dropWhile_cons_of_pos hd]
      exact ih
    · rw [List.cons_append, trimStart, trimStart, List.dropWhile_cons_of_neg hd,
        List.dropWhile_cons_of_neg hd]
      rfl

/-- Around a character that is not blank, the two sides of a text are cut apart. -/
theorem trim_append_cons {c : Char} (hc : isBlank c = false) (text rest : List Char) :
    trim (text ++ c :: rest) = trimStart text ++ c :: trimEnd rest := by
  -- the end is cut like the start of the reversed text
  rw [trim, trimStart_append_cons hc, trimEnd, List.reverse_append, List.reverse_cons,
    List.append_assoc, List.singleton_append, trimStart_append_cons hc, trimEnd]
  simp

theorem trim_cons {c : Char} (hc : isBlank c = false) (text : List Char) :
    trim (c :: text) = c :: trimEnd text :=
  trim_append_cons hc [] text

/-- A text is what is left of it when the blanks at its start are cut, after these blanks. -/
theorem exists_append_trimStart (text : List Char) :
    ∃ blanks, (∀ c ∈ blanks, isBlank c = true) ∧ text = blanks ++ trimStart text :=
  ⟨text.takeWhile isBlank, fun _ hc => List.mem_takeWhile_imp hc,
    List.takeWhile_append_dropWhile.symm⟩

/-- So it is with the blanks at its end. -/
theorem exists_trimEnd_append (text : List Char) :
    ∃ blanks, (∀ c ∈ blanks, isBlank c = true) ∧ text = trimEnd text ++ blanks := by
  obtain ⟨blanks, hblanks, htext⟩ := exists_append_trimStart text.reverse
  refine ⟨blanks.reverse, fun c hc => hblanks c (List.mem_reverse.1 hc), ?_⟩
  rw [trimEnd, ← List.reverse_append, ← htext, List.reverse_reverse]

theorem trim_trimStart (text : List Char) : trim (trimStart text) = trim text := by
  obtain ⟨blanks, hblanks, htext⟩ := exists_append_trimStart text
  calc trim (trimStart text)
      = trim (blanks ++ trimStart text) := (trim_append_of_blank hblanks _).symm
    _ = trim text := by rw [← htext]

theorem trim_trimEnd (text : List Char) : trim (trimEnd text) = trim text := by
  obtain ⟨blanks, hblanks, htext⟩ := exists_trimEnd_append text
  calc trim (trimEnd text)
      = trim (trimEnd text ++ blanks) := (trim_append_blanks hblanks _).symm
    _ = trim text := by rw [← htext]

/-- A text is cut from its first character that is not blank. -/
theorem trim_of_trimStart_eq_cons {c : Char} (h : trimStart text = c :: rest) :
    trim text = c :: trimEnd rest := by
  have hstops : Stops isBlank (trimStart text) := stops_dropWhile isBlank text
  rw [h] at hstops
  rw [← trim_trimStart, h, trim_cons (hstops c rfl)]

theorem head?_trim (text : List Char) : (trim text).head? = (trimStart text).head? := by
  cases h : trimStart text with
  | nil =>
    rw [trim, h]
    rfl
  | cons c rest =>
    -- what is cut at the end leaves the first visible character in its place
    rw [trim_of_trimStart_eq_cons h]
    rfl

/-! ### Visible characters -/

/-- Whether a character is ASCII and leaves a mark. -/
def isVisible (c : Char) : Bool :=
  0x20 < c.toNat && c.toNat < 0x7F

theorem isBlank_of_isVisible {c : Char} (h : isVisible c = true) : isBlank c = false := by
  simp only [isVisible, Bool.and_eq_true, decide_eq_true_eq] at h
  simp only [isBlank, blankRanges, List.any_cons, List.any_nil, Bool.or_false,
    Bool.or_eq_false_iff, Bool.and_eq_false_iff, decide_eq_false_iff_not]
  -- no range of blanks meets the visible characters
  omega

theorem isVisible_of_isAlphanum {c : Char} (h : c.isAlphanum = true) : isVisible c = true := by
  simp only [Char.isAlphanum, Char.isAlpha, Char.isUpper, Char.isLower, Char.isDigit,
    Bool.or_eq_true, Bool.and_eq_true, decide_eq_true_eq, UInt32.le_iff_toNat_le, ge_iff_le] at h
  simp only [isVisible, Char.toNat, Bool.and_eq_true, decide_eq_true_eq]
  simp only [UInt32.reduceToNat, Char.reduceVal] at h
  omega

theorem isVisible_of_isDigit {c : Char} (h : c.isDigit = true) : isVisible c = true :=
  isVisible_of_isAlphanum (by simp [Char.isAlphanum, h])

theorem stops_isBlank_of_isVisible (h : ∀ c ∈ text, isVisible c = true) : Stops isBlank text :=
  fun c hc => isBlank_of_isVisible (h c (List.mem_of_mem_head? hc))

end FormulaSheet.Text
