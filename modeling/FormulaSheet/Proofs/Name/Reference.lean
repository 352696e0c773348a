/-
References and their names.

A name spells a reference by the numbers of its column and row, and both numbers are written in one
way only: a digit is worth one to twenty-six in a column and there is no digit for zero, and no row
number starts with zero when it is written.  So the text of a reference is the only one of its names
with capital letters and no leading zeros.

* **`letterValue_letterNumeral`**, **`letterNumeral_letterValue`** — letters and the numbers of
  columns are inverse to each other, up to the case of letters;
* **`toDigits_ofDigitChars`** — so are digits and the numbers of rows, up to leading zeros;
* **`Reference.parse?_eq_some_iff`** — which names spell a reference;
* **`Reference.parse?_eq_parseInWords?`** — the same, with arithmetic on machine words;
* **`Reference.parse?_inverts_text`** — a reference is read from its text, and the text of a
  reference that is read is its name in normal form.

A number that is read digit by digit never gets smaller, so a check whether it fits a word may be
made at each step or at the end alone.
-/
import FormulaSheet.Name.Reference
import FormulaSheet.Proofs.Text.Cut
import Mathlib.Data.Nat.Digits.Defs

namespace FormulaSheet

/-! ### The letters of a column -/

/-- What a letter in either case is worth, `A` being worth one. -/
def letterDigit (c : Char) : Nat :=
  c.toUpper.toNat - 'A'.toNat + 1

theorem toNat_toUpper {c : Char} (h : c.isAlpha = true) :
    'A'.toNat ≤ c.toUpper.toNat ∧ c.toUpper.toNat ≤ 'Z'.toNat := by
  simp only [Char.isAlpha, Char.isUpper, Char.isLower, Bool.or_eq_true, Bool.and_eq_true,
    decide_eq_true_eq, UInt32.le_iff_toNat_le, ge_iff_le] at h
  unfold Char.toUpper
  -- a small letter stands 32 places behind its capital
  split
  · next hlower =>
    simp only [UInt32.le_iff_toNat_le] at hlower
    simp only [Char.toNat, UInt32.toNat_add, Char.reduceVal, UInt32.reduceSub,
      UInt32.reduceToNat] at *
    omega
  · next hlower =>
    simp only [UInt32.le_iff_toNat_le] at hlower
    simp only [Char.toNat, Char.reduceVal, UInt32.reduceToNat] at *
    omega

theorem isAlpha_ofNat {k : Nat} (hk : k < 26) : (Char.ofNat ('A'.toNat + k)).isAlpha = true ∧
    letterDigit (Char.ofNat ('A'.toNat + k)) = k + 1 := by
  interval_cases k <;> decide

theorem letterValue_concat (letters : List Char) (c : Char) :
    letterValue (letters ++ [c]) = 26 * letterValue letters + letterDigit c := by
  rw [letterValue, List.foldl_append]
  rfl

/-- Letters are the digits of a numeral in base 26. -/
theorem letterValue_eq_ofDigits (letters : List Char) :
    letterValue letters = Nat.ofDigits 26 (letters.reverse.map letterDigit) := by
  induction letters using List.reverseRecOn with
  | nil => rfl
  | append_singleton letters c ih =>
    rw [letterValue_concat, ih, List.reverse_append, List.reverse_singleton, List.singleton_append,
      List.map_cons, Nat.ofDigits_cons, Nat.add_comm]

/-- The letter of the last place is one of twenty-six, and what stands before it is any number. -/
theorem letterNumeral_add {n k : Nat} (hk : k < 26) :
    letterNumeral (26 * n + (k + 1)) = letterNumeral n ++ [Char.ofNat ('A'.toNat + k)] := by
  have hfront : (26 * n + (k + 1) - 1) / 26 = n := by omega
  have hlast : (26 * n + (k + 1) - 1) % 26 = k := by omega
  rw [letterNumeral, if_neg (by omega), hfront, hlast]

/-- Every number but zero has a last place that is worth one to twenty-six. -/
theorem exists_last_place {n : Nat} (h : n ≠ 0) : ∃ m k, k < 26 ∧ m < n ∧ n = 26 * m + (k + 1) :=
  ⟨(n - 1) / 26, (n - 1) % 26, by omega, by omega, by omega⟩

theorem isAlpha_of_mem_letterNumeral {n : Nat} {c : Char} (hc : c ∈ letterNumeral n) :
    c.isAlpha = true := by
  induction n using Nat.strongRecOn with
  | ind n ih =>
    rcases Nat.eq_zero_or_pos n with rfl | hpos
    · rw [letterNumeral] at hc
      cases hc
    · -- what stands before the last place is a smaller number
      obtain ⟨m, k, hk, hm, rfl⟩ := exists_last_place hpos.ne'
      rw [letterNumeral_add hk, List.mem_append, List.mem_singleton] at hc
      rcases hc with hc | rfl
      · exact ih m hm hc
      · exact (isAlpha_ofNat hk).1

theorem letterValue_letterNumeral (n : Nat) : letterValue (letterNumeral n) = n := by
  induction n using Nat.strongRecOn with
  | ind n ih =>
    rcases Nat.eq_zero_or_pos n with rfl | hpos
    · rw [letterNumeral]
      rfl
    · obtain ⟨m, k, hk, hm, rfl⟩ := exists_last_place hpos.ne'
      rw [letterNumeral_add hk, letterValue_concat, ih m hm, (isAlpha_ofNat hk).2]

/-- Letters are those of the number that they are worth, but for their case. -/
theorem letterNumeral_letterValue {letters : List Char} (h : ∀ c ∈ letters, c.isAlpha = true) :
    letterNumeral (letterValue letters) = letters.map Char.toUpper := by
  induction letters using List.reverseRecOn with
  | nil =>
    rw [letterValue, List.foldl_nil, letterNumeral]
    rfl
  | append_singleton letters c ih =>
    obtain ⟨hletters, hc⟩ := List.forall_mem_append.1 h
    obtain ⟨hlow, hhigh⟩ := toNat_toUpper (hc c (.head _))
    -- the last letter is the one that its worth counts from `A`
    have hlast : Char.ofNat ('A'.toNat + (c.toUpper.toNat - 'A'.toNat)) = c.toUpper := by
      rw [Nat.add_sub_cancel' hlow, Char.ofNat_toNat]
    have hrange : c.toUpper.toNat - 'A'.toNat < 26 := by
      have : 'Z'.toNat = 'A'.toNat + 25 := rfl
      omega
    rw [letterValue_concat, letterDigit, letterNumeral_add hrange, ih hletters, hlast,
      List.map_append, List.map_singleton]

theorem columnLetters_injective : Function.Injective columnLetters := by
  intro a b h
  have hletters := congrArg letterValue (String.ofList_injective h)
  rw [letterValue_letterNumeral, letterValue_letterNumeral] at hletters
  exact Nat.succ_injective hletters

/-! ### The digits of a row -/

/-- What a digit is worth. -/
def decimalDigit (c : Char) : Nat :=
  c.toNat - '0'.toNat

theorem digitChar_decimalDigit {c : Char} (h : c.isDigit = true) :
    decimalDigit c < 10 ∧ Nat.digitChar (decimalDigit c) = c := by
  simp only [Char.isDigit, Bool.and_eq_true, decide_eq_true_eq, UInt32.le_iff_toNat_le,
    ge_iff_le, Char.reduceVal, UInt32.reduceToNat] at h
  have hrange : decimalDigit c < 10 := by
    simp only [decimalDigit, Char.toNat, Char.reduceVal, UInt32.reduceToNat] at *
    omega
  refine ⟨hrange, Char.toNat_inj.1 ?_⟩
  rw [Nat.toNat_digitChar_of_lt_ten hrange, decimalDigit]
  simp only [Char.toNat, Char.reduceVal, UInt32.reduceToNat]
  omega

theorem ofDigitChars_concat (digits : List Char) (c : Char) :
    Nat.ofDigitChars 10 (digits ++ [c]) 0 = 10 * Nat.ofDigitChars 10 digits 0 + decimalDigit c := by
  rw [Nat.ofDigitChars_append, Nat.ofDigitChars_cons, Nat.ofDigitChars_nil]
  rfl

theorem ofDigitChars_eq_ofDigits (digits : List Char) :
    Nat.ofDigitChars 10 digits 0 = Nat.ofDigits 10 (digits.reverse.map decimalDigit) := by
  induction digits using List.reverseRecOn with
  | nil => rfl
  | append_singleton digits c ih =>
    rw [ofDigitChars_concat, ih, List.reverse_append, List.reverse_singleton,
      List.singleton_append, List.map_cons, Nat.ofDigits_cons, Nat.add_comm]

/-- Without leading zeros, digits are those of the number that they are worth; of zero none are
left. -/
theorem dropWhile_zero_eq {digits : List Char} (h : ∀ c ∈ digits, c.isDigit = true) :
    digits.dropWhile (· == '0') = if Nat.ofDigitChars 10 digits 0 = 0 then []
      else Nat.toDigits 10 (Nat.ofDigitChars 10 digits 0) := by
  induction digits using List.reverseRecOn with
  | nil => rfl
  | append_singleton digits c ih =>
    obtain ⟨hdigits, hc⟩ := List.forall_mem_append.1 h
    obtain ⟨hrange, hchar⟩ := digitChar_decimalDigit (hc c (.head _))
    rw [List.dropWhile_append, ih hdigits, ofDigitChars_concat]
    generalize Nat.ofDigitChars 10 digits 0 = n
    rcases Nat.eq_zero_or_pos n with rfl | hpos
    · -- only zeros stand before the last digit
      rw [if_pos rfl, Nat.mul_zero, Nat.zero_add]
      rcases Nat.eq_zero_or_pos (decimalDigit c) with hzero | hne
      · rw [hzero] at hchar ⊢
        rw [← hchar]
        rfl
      · have hnot : (c == '0') = false := by
          rw [beq_eq_false_iff_ne]
          rintro rfl
          exact absurd hne (by decide)
        rw [if_neg hne.ne', Nat.toDigits_of_lt_base hrange, hchar]
        simp [hnot]
    · have hne : 10 * n + decimalDigit c ≠ 0 := by omega
      rw [if_neg hpos.ne', if_neg hne, ← Nat.toDigits_append_toDigits (by omega) hpos hrange,
        Nat.toDigits_of_lt_base hrange, hchar]
      simp

theorem toDigits_ofDigitChars {digits : List Char} (h : ∀ c ∈ digits, c.isDigit = true)
    (hne : Nat.ofDigitChars 10 digits 0 ≠ 0) :
    Nat.toDigits 10 (Nat.ofDigitChars 10 digits 0) = digits.dropWhile (· == '0') := by
  rw [dropWhile_zero_eq h, if_neg hne]

/-! ### Names of a reference -/

namespace Reference

/-- Letters and digits that spell a reference, with both of its numbers in the range of words. -/
structure IsSpelled (r : Reference) (letters digits : List Char) : Prop where
  isAlpha : ∀ c ∈ letters, c.isAlpha = true
  isDigit : ∀ c ∈ digits, c.isDigit = true
  column : letterValue letters = r.column + 1
  row : Nat.ofDigitChars 10 digits 0 = r.row + 1
  column_lt : r.column < wordMax
  row_lt : r.row < wordMax

variable {r : Reference} {letters digits : List Char} {name : String}

/-- The letters of a name end where its digits start. -/
theorem cut_letters (hletters : ∀ c ∈ letters, c.isAlpha = true)
    (hdigits : ∀ c ∈ digits, c.isDigit = true) :
    (letters ++ digits).takeWhile Char.isAlpha = letters ∧
      (letters ++ digits).dropWhile Char.isAlpha = digits := by
  -- no digit is a letter, so the letters end with the first digit
  have hstops : Text.Stops Char.isAlpha digits := by
    intro c hc
    have hdigit := hdigits c (List.mem_of_mem_head? hc)
    simp only [Char.isDigit, Char.isAlpha, Char.isUpper, Char.isLower, Bool.or_eq_false_iff,
      Bool.and_eq_true, Bool.and_eq_false_iff, decide_eq_true_eq, decide_eq_false_iff_not,
      UInt32.le_iff_toNat_le, ge_iff_le, Char.reduceVal, UInt32.reduceToNat] at hdigit ⊢
    omega
  exact ⟨Text.takeWhile_append_of_stops hletters hstops,
    Text.dropWhile_append_of_stops hletters hstops⟩

/-- A name is read as the reference that its letters and digits spell. -/
theorem parse?_eq_some_iff : parse? name = some r ↔
    ∃ letters digits, name.toList = letters ++ digits ∧ r.IsSpelled letters digits := by
  constructor
  · intro h
    unfold parse? at h
    dsimp only at h
    split at h
    · next hcond =>
      obtain ⟨hdigits, hcolumn, hcolumnMax, hrow, hrowMax⟩ := hcond
      obtain rfl := Option.some.inj h
      refine ⟨_, _, (List.takeWhile_append_dropWhile (p := Char.isAlpha)).symm, ?_⟩
      exact ⟨fun c hc => List.mem_takeWhile_imp hc, List.all_eq_true.1 hdigits,
        (Nat.sub_add_cancel hcolumn).symm, (Nat.sub_add_cancel hrow).symm,
        Nat.sub_one_lt_of_le hcolumn hcolumnMax, Nat.sub_one_lt_of_le hrow hrowMax⟩
    · cases h
  · rintro ⟨letters, digits, hname, h⟩
    obtain ⟨htake, hdrop⟩ := cut_letters h.isAlpha h.isDigit
    have hcolumn := h.column_lt
    have hrow := h.row_lt
    unfold parse?
    dsimp only
    rw [hname, htake, hdrop, h.column, h.row, if_pos]
    · rfl
    · exact ⟨List.all_eq_true.2 h.isDigit, by omega, by omega, by omega, by omega⟩

theorem isSpelled_text (hcolumn : r.column < wordMax) (hrow : r.row < wordMax) :
    r.IsSpelled (letterNumeral (r.column + 1)) (Nat.toDigits 10 (r.row + 1)) where
  isAlpha _ hc := isAlpha_of_mem_letterNumeral hc
  isDigit _ hc := Nat.isDigit_of_mem_toDigits (by omega) (by omega) hc
  column := letterValue_letterNumeral _
  row := Nat.ofDigitChars_ten_toDigits
  column_lt := hcolumn
  row_lt := hrow

theorem parse?_text (hcolumn : r.column < wordMax) (hrow : r.row < wordMax) :
    parse? r.text = some r :=
  parse?_eq_some_iff.2 ⟨_, _, String.toList_ofList, isSpelled_text hcolumn hrow⟩

/-- The text of a reference is what spells it, with capital letters and without leading zeros. -/
theorem IsSpelled.text_eq (h : r.IsSpelled letters digits) :
    r.text = String.ofList (letters.map Char.toUpper ++ digits.dropWhile (· == '0')) := by
  have hrow : Nat.ofDigitChars 10 digits 0 ≠ 0 := by
    rw [h.row]
    exact Nat.succ_ne_zero _
  rw [text, ← h.column, ← h.row, letterNumeral_letterValue h.isAlpha,
    toDigits_ofDigitChars h.isDigit hrow]

/-! ### Arithmetic on words -/

/-- A number, if it is in the range of words. -/
def word? (n : Nat) : Option Nat :=
  if n ≤ wordMax then some n else none

/-- What digits are worth, if no step on the way leaves the range of words. -/
def wordValue? (base : Nat) (digit : Char → Nat) (chars : List Char) : Option Nat :=
  chars.foldlM (fun n c => do word? ((← word? (n * base)) + digit c)) 0

theorem word?_eq_some_iff {n m : Nat} : word? n = some m ↔ n = m ∧ n ≤ wordMax := by
  unfold word?
  split
  · next hle => simp [hle]
  · next hgt => simp [hgt]

/-- A number that has left the range of words is not brought back by one more digit. -/
theorem word?_bind_digit {base : Nat} (hbase : 0 < base) (n d : Nat) :
    (word? n >>= fun n => word? (n * base) >>= fun m => word? (m + d)) = word? (base * n + d) := by
  have hgrows : n ≤ base * n := Nat.le_mul_of_pos_left n hbase
  ext m
  simp only [Option.bind_eq_bind, Option.bind_eq_some_iff, word?_eq_some_iff, Nat.mul_comm base]
    at hgrows ⊢
  constructor
  · rintro ⟨_, ⟨rfl, -⟩, _, ⟨rfl, -⟩, rfl, hmax⟩
    exact ⟨rfl, hmax⟩
  · rintro ⟨rfl, hmax⟩
    exact ⟨n, ⟨rfl, by omega⟩, n * base, ⟨rfl, by omega⟩, rfl, hmax⟩

/-- A value that is in the range of words at the end never left it on the way. -/
theorem wordValue?_eq {base : Nat} (hbase : 0 < base) (digit : Char → Nat) (chars : List Char) :
    wordValue? base digit chars = word? (chars.foldl (fun n c => base * n + digit c) 0) := by
  induction chars using List.reverseRecOn with
  | nil => rfl
  | append_singleton chars c ih =>
    rw [wordValue?] at ih ⊢
    -- the last digit is added to a word, or to nothing if the others left the range
    rw [List.foldlM_append, ih, List.foldl_append, List.foldl_cons, List.foldl_nil,
      ← word?_bind_digit hbase]
    simp only [List.foldlM_cons, List.foldlM_nil, bind_pure]

/-- The reference that a name spells, read with arithmetic on words: any step that leaves their
range ends the reading, and zero is no number of a column or row. -/
def parseInWords? (name : String) : Option Reference := do
  let letters := name.toList.takeWhile Char.isAlpha
  let digits := name.toList.dropWhile Char.isAlpha
  if letters.isEmpty || digits.isEmpty || !digits.all Char.isDigit then none
  else
    let column ← wordValue? 26 letterDigit letters
    let row ← wordValue? 10 decimalDigit digits
    if column = 0 ∨ row = 0 then none else some ⟨column - 1, row - 1⟩

theorem parse?_eq_parseInWords? (name : String) : parse? name = parseInWords? name := by
  unfold parse? parseInWords?
  dsimp only
  generalize name.toList.takeWhile Char.isAlpha = letters
  generalize name.toList.dropWhile Char.isAlpha = digits
  have hcolumn : wordValue? 26 letterDigit letters = word? (letterValue letters) :=
    wordValue?_eq (by omega) _ _
  have hrow : wordValue? 10 decimalDigit digits = word? (Nat.ofDigitChars 10 digits 0) := by
    rw [Nat.ofDigitChars_eq_foldl]
    exact wordValue?_eq (by omega) _ _
  rw [hcolumn, hrow]
  split
  · next hcond =>
    obtain ⟨hdigits, hcolumnPos, hcolumnMax, hrowPos, hrowMax⟩ := hcond
    -- letters or digits that are missing are worth nothing
    have hletters : letters.isEmpty = false := by
      rw [List.isEmpty_eq_false_iff]
      rintro rfl
      exact absurd hcolumnPos (Nat.lt_irrefl 0)
    have hne : digits.isEmpty = false := by
      rw [List.isEmpty_eq_false_iff]
      rintro rfl
      exact absurd hrowPos (Nat.lt_irrefl 0)
    rw [hletters, hne, hdigits, word?_eq_some_iff.2 ⟨rfl, hcolumnMax⟩,
      word?_eq_some_iff.2 ⟨rfl, hrowMax⟩]
    exact (if_neg (by omega)).symm
  · next hcond =>
    refine (Option.eq_none_iff_forall_ne_some.2 fun r h => hcond ?_).symm
    split at h
    · cases h
    · next hcut =>
      simp only [Bool.or_eq_true, Bool.not_eq_true', not_or, Bool.not_eq_false] at hcut
      obtain ⟨column, hcolumn, h⟩ := Option.bind_eq_some_iff.1 h
      obtain ⟨row, hrow, h⟩ := Option.bind_eq_some_iff.1 h
      obtain ⟨rfl, hcolumnMax⟩ := word?_eq_some_iff.1 hcolumn
      obtain ⟨rfl, hrowMax⟩ := word?_eq_some_iff.1 hrow
      split at h
      · cases h
      · exact ⟨hcut.2, by omega, hcolumnMax, by omega, hrowMax⟩

/-! ### The correspondence -/

/-- A name spells a reference exactly if it is letters and then digits, at least one of each, and
both are worth a positive number in the range of words. -/
theorem isReferenceName_iff : isReferenceName name = true ↔
    ∃ letters digits, name.toList = letters ++ digits ∧ letters ≠ [] ∧ digits ≠ [] ∧
      (∀ c ∈ letters, c.isAlpha = true) ∧ (∀ c ∈ digits, c.isDigit = true) ∧
      Nat.ofDigits 26 (letters.reverse.map letterDigit) ∈ Set.Icc 1 wordMax ∧
      Nat.ofDigits 10 (digits.reverse.map decimalDigit) ∈ Set.Icc 1 wordMax := by
  simp only [isReferenceName, Option.isSome_iff_exists, parse?_eq_some_iff,
    ← letterValue_eq_ofDigits, ← ofDigitChars_eq_ofDigits, Set.mem_Icc]
  constructor
  · rintro ⟨r, letters, digits, hname, h⟩
    have hcolumn := h.column
    have hrow := h.row
    have hcolumnMax := h.column_lt
    have hrowMax := h.row_lt
    refine ⟨letters, digits, hname, ?_, ?_, h.isAlpha, h.isDigit, by omega, by omega⟩
    · rintro rfl
      exact absurd hcolumn (Nat.succ_ne_zero _).symm
    · rintro rfl
      exact absurd hrow (Nat.succ_ne_zero _).symm
  · rintro ⟨letters, digits, hname, -, -, hletters, hdigits, ⟨hcolumn, hcolumnMax⟩, hrow, hrowMax⟩
    exact ⟨⟨letterValue letters - 1, Nat.ofDigitChars 10 digits 0 - 1⟩, letters, digits, hname,
      hletters, hdigits, (Nat.sub_add_cancel hcolumn).symm, (Nat.sub_add_cancel hrow).symm,
      Nat.sub_one_lt_of_le hcolumn hcolumnMax, Nat.sub_one_lt_of_le hrow hrowMax⟩

/-- References and their names correspond.  A reference whose column and row are below the largest
word is read from its text.  The numbers of a reference that is read from a name are in the range of
words, its text is that name with capital letters and without the leading zeros of its digits, and
the text is read as the same reference.  A name spells a reference exactly if it is letters and then
digits whose values, in base 26 without a zero and in base 10, are from one to the largest word; and
reading it with arithmetic on words comes to the same.  All columns have different letters. -/
theorem parse?_inverts_text :
    (∀ r : Reference, r.column < wordMax → r.row < wordMax → parse? r.text = some r) ∧
    (∀ name r, parse? name = some r →
      r.column + 1 ≤ wordMax ∧ r.row + 1 ≤ wordMax ∧
      r.text = String.ofList ((name.toList.takeWhile Char.isAlpha).map Char.toUpper ++
        (name.toList.dropWhile Char.isAlpha).dropWhile (· == '0')) ∧
      parse? r.text = some r) ∧
    (∀ name, isReferenceName name = true ↔
      ∃ letters digits, name.toList = letters ++ digits ∧ letters ≠ [] ∧ digits ≠ [] ∧
        (∀ c ∈ letters, c.isAlpha = true) ∧ (∀ c ∈ digits, c.isDigit = true) ∧
        Nat.ofDigits 26 (letters.reverse.map letterDigit) ∈ Set.Icc 1 wordMax ∧
        Nat.ofDigits 10 (digits.reverse.map decimalDigit) ∈ Set.Icc 1 wordMax) ∧
    (∀ name, parse? name = parseInWords? name) ∧
    Function.Injective columnLetters := by
  refine ⟨fun r => parse?_text, fun name r h => ?_, fun name => isReferenceName_iff,
    parse?_eq_parseInWords?, columnLetters_injective⟩
  obtain ⟨letters, digits, hname, hspelled⟩ := parse?_eq_some_iff.1 h
  obtain ⟨htake, hdrop⟩ := cut_letters hspelled.isAlpha hspelled.isDigit
  rw [hname, htake, hdrop]
  exact ⟨hspelled.column_lt, hspelled.row_lt, hspelled.text_eq,
    parse?_text hspelled.column_lt hspelled.row_lt⟩

/-- The last reference whose numbers are words, from a name with letters of both cases and leading
zeros; the next column has letters too, but they spell no reference. -/
theorem parse?_inverts_text_last :
    let last : Reference := ⟨18446744073709551614, 18446744073709551614⟩
    parse? "gkgwBYLWRXTLPO0018446744073709551615" = some last ∧
      last.row + 1 ≤ wordMax ∧ last.text = "GKGWBYLWRXTLPO18446744073709551615" ∧
      parse? "GKGWBYLWRXTLPO18446744073709551615" = some last ∧
      columnLetters wordMax = "GKGWBYLWRXTLPP" ∧ parse? "GKGWBYLWRXTLPP1" = none ∧
      columnLetters wordMax ≠ columnLetters last.column := by
  intro last
  have hread : parse? "gkgwBYLWRXTLPO0018446744073709551615" = some last := by decide +kernel
  obtain ⟨-, hname, -, -, hletters⟩ := parse?_inverts_text
  obtain ⟨-, hrow, htext, hback⟩ := hname _ last hread
  have htext' : last.text = "GKGWBYLWRXTLPO18446744073709551615" := by
    rw [htext]
    decide +kernel
  rw [htext'] at hback
  have hlast : wordMax ≠ last.column := by decide
  exact ⟨hread, hrow, htext', hback, by cbv, by decide +kernel, hletters.ne hlast⟩

end Reference

end FormulaSheet
