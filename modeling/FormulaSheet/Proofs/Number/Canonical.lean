/-
The canonical text of a number.

A finite number is written as a numeral, after a minus sign if the number is below zero, and
whatever reads numbers reads that text: as a double, as a token of a formula, as the value of a
cell in a sheet file, and as an input.

* **`canonicalChars_eq`** — the text of a finite double: the numeral of its pattern, with a sign
  exactly if the double is below zero;
* **`scan?_magnitudeText`**, **`scanAll_magnitudeText`** — that numeral is one lexeme, and as a
  token it is the absolute value of the double;
* **`canonicalText_eq_iff`** — doubles are written alike exactly if they are equal;
* **`canonicalText_readable`** — what is written is exact, and is read by everything that reads
  numbers.

Equal doubles are `0` and `-0` or the same, so nothing is lost in a text but the sign of zero.
-/
import FormulaSheet.Proofs.SheetFile.ReadBack

namespace FormulaSheet.Number

variable {x y : Float}

/-! ### The numeral and its sign -/

/-- A finite double is written with a sign exactly if it is below zero. -/
theorem canonicalChars_eq (h : x.isFinite = true) :
    canonicalChars x =
      if x < 0 then '-' :: magnitudeText (magnitude x) else magnitudeText (magnitude x) := by
  rw [canonicalChars_of_isFinite h]
  exact if_congr (lt_zero_iff h).symm rfl rfl

theorem scan?_magnitudeText {p : Nat} (hp : p < Binary64.infinity) :
    Lexeme.scan? (magnitudeText p) = some (.numeral (magnitudeNumeral p), []) := by
  have hscan := Lexeme.scan?_numeral (isSpelled_magnitudeNumeral p).isLiteral
    (Text.stops_nil continuesNumeral)
  rwa [List.append_nil, text_magnitudeNumeral hp] at hscan

/-- As a formula, the text of a double without its sign is the absolute value of the double. -/
theorem scanAll_magnitudeText (h : x.isFinite = true) :
    Token.scanAll (magnitudeText (magnitude x)) = .ok [.number x.abs] := by
  have hp := isFinite_iff.1 h
  -- a number token is written as its pattern, for it has no sign
  have habs : (Token.number x.abs).chars = magnitudeText (magnitude x) := by
    rw [abs_eq_ofMagnitude h, Token.chars_number hp, text_magnitudeNumeral hp]
  have hspells : Spells (Token.number x.abs).chars (.number x.abs) :=
    Token.spells_chars ⟨magnitude x, hp, abs_eq_ofMagnitude h⟩
  rw [← habs, ← List.append_nil (Token.number x.abs).chars]
  exact Token.scanAll_of_spells hspells (fun _ => Text.stops_nil _)
    (Token.scanAll_of_blank (by simp))

/-! ### Exactness -/

theorem exists_read?_canonicalChars (h : x.isFinite = true) :
    ∃ y, read? (canonicalChars x) = some y ∧ (y == x) = true := by
  have hread := readFinite?_canonicalChars h
  exact ⟨_, (Option.filter_eq_some_iff.1 hread).1, withoutNegativeZero_beq h⟩

theorem beq_of_canonicalChars_eq (hx : x.isFinite = true) (hy : y.isFinite = true)
    (h : canonicalChars x = canonicalChars y) : (x == y) = true := by
  have hreadx := readFinite?_canonicalChars hx
  have hready := readFinite?_canonicalChars hy
  -- both are equal to the one double that their text is read as
  have hsame : withoutNegativeZero x = withoutNegativeZero y := by
    rw [h, hready] at hreadx
    exact (Option.some.inj hreadx).symm
  have hfinite : (withoutNegativeZero x).isFinite = true :=
    (Option.filter_eq_some_iff.1 hreadx).2
  have hleft : (x == withoutNegativeZero x) = true := beq_withoutNegativeZero hx
  have hright : (withoutNegativeZero x == y) = true := by
    rw [hsame]
    exact withoutNegativeZero_beq hy
  exact beq_trans hx hfinite hy hleft hright

theorem canonicalText_eq_iff (hx : x.isFinite = true) (hy : y.isFinite = true) :
    canonicalText x = canonicalText y ↔ (x == y) = true := by
  constructor
  · intro h
    exact beq_of_canonicalChars_eq hx hy (String.ofList_injective h)
  · intro h
    show String.ofList _ = String.ofList _
    rw [canonicalChars_eq_of_beq hx hy h]

/-! ### Readers -/

theorem cellInput_canonicalChars (h : x.isFinite = true) :
    SheetFile.cellInput (canonicalChars x) = .ok (canonicalChars x) := by
  have hvalue := SheetFile.cellInput_valueText (c := .number x) h
  -- a number is no text, so it is written without quotes
  rw [SheetFile.valueText, Contents.toList_input_number] at hvalue
  · exact hvalue
  · simp

theorem read_canonicalChars (h : x.isFinite = true) {name : String}
    (hname : isVariableName name = true) :
    SheetLine.read (name.toList ++ ':' :: ' ' :: canonicalChars x) =
      .ok (.cell name (canonicalText x)) := by
  have hline := SheetFile.read_cellLine (c := .number x) hname h
  rw [SheetFile.valueText, Contents.toList_input_number] at hline
  · exact hline
  · simp

/-- The text of a finite double as an input makes a cell hold a double that is equal to it. -/
theorem exists_classify_canonicalText (h : x.isFinite = true) (config : SheetConfig) :
    ∃ y, Document.classify config (canonicalText x) = .ok (some (.number y)) ∧
      (y == x) = true :=
  ⟨_, Contents.classify_input (c := .number x) h, withoutNegativeZero_beq h⟩

/-- What is written is exact, and is read by everything that reads numbers.  The text of a finite
double is read as a double equal to it.  Two of them are written alike exactly if they are equal,
which only `0` and `-0` are without being the same.  The text is one numeral, which is cut whole
from a formula as the absolute value, after a minus sign exactly if the double is below zero.  It
has no blanks, so it is the value of a cell in a sheet file as it stands, and as an input it makes a
cell hold the number. -/
theorem canonicalText_readable (h : x.isFinite = true) :
    (∃ y, read? (canonicalChars x) = some y ∧ (y == x) = true) ∧
      (∀ y : Float, y.isFinite = true →
        (canonicalText x = canonicalText y ↔ (x == y) = true) ∧
          ((x == y) = true ↔ x = y ∨ (x = 0 ∨ x = -0) ∧ (y = 0 ∨ y = -0))) ∧
      (∃ digits numeral, canonicalChars x = (if x < 0 then '-' :: digits else digits) ∧
        Lexeme.scan? digits = some (.numeral numeral, []) ∧
        Token.scanAll digits = .ok [.number x.abs]) ∧
      (∀ c ∈ canonicalChars x, Text.isBlank c = false) ∧
      SheetFile.cellInput (canonicalChars x) = .ok (canonicalChars x) ∧
      (∀ name, isVariableName name = true →
        SheetLine.read (name.toList ++ ':' :: ' ' :: canonicalChars x) =
          .ok (.cell name (canonicalText x))) ∧
      ∀ config, ∃ y, Document.classify config (canonicalText x) = .ok (some (.number y)) ∧
        (y == x) = true := by
  have hp := isFinite_iff.1 h
  refine ⟨exists_read?_canonicalChars h, ?_, ?_, ?_, cellInput_canonicalChars h, ?_, ?_⟩
  · intro y hy
    exact ⟨canonicalText_eq_iff h hy, beq_iff h hy⟩
  · exact ⟨magnitudeText (magnitude x), magnitudeNumeral (magnitude x), canonicalChars_eq h,
      scan?_magnitudeText hp, scanAll_magnitudeText h⟩
  · intro c hc
    exact Text.isBlank_of_isVisible (isVisible_canonicalChars h hc)
  · intro name hname
    exact read_canonicalChars h hname
  · exact exists_classify_canonicalText h

/-- The greatest double below zero is written with an exponent, and is not confused with zero. -/
theorem canonicalText_readable_subnormal :
    let x : Float := -5e-324
    x.isFinite = true ∧ canonicalText x = "-5e-324" ∧ canonicalText x ≠ canonicalText 0 ∧
      (∃ digits numeral, "-5e-324".toList = '-' :: digits ∧
        Lexeme.scan? digits = some (.numeral numeral, []) ∧
        Token.scanAll digits = .ok [.number 5e-324]) ∧
      SheetLine.read "v: -5e-324".toList = .ok (.cell "v" "-5e-324") := by
  intro x
  have hfinite : x.isFinite = true := by decide +kernel
  have hchars : canonicalChars x = "-5e-324".toList := by decide +kernel
  have htext : canonicalText x = "-5e-324" := by
    rw [canonicalText, hchars, String.ofList_toList]
  have hnegative : x < 0 := by decide +kernel
  have habs : x.abs = 5e-324 := by decide +kernel
  obtain ⟨-, hsame, ⟨digits, numeral, hdigits, hscan, htokens⟩, -, -, hline, -⟩ :=
    canonicalText_readable hfinite
  refine ⟨hfinite, htext, ?_, ⟨digits, numeral, ?_, hscan, ?_⟩, ?_⟩
  · intro hzero
    have hbeq := (hsame 0 (by decide +kernel)).1.1 hzero
    exact absurd hbeq (by decide +kernel)
  · rw [← hchars, hdigits, if_pos hnegative]
  · rw [htokens, habs]
  · have hread := hline "v" (by decide)
    rw [hchars, htext] at hread
    exact hread

end FormulaSheet.Number
