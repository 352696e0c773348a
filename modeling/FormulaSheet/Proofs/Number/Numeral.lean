/-
Numerals read back.

A numeral is scanned as it is spelled, wherever something else follows it, and whatever is scanned
is a numeral of the text.  The text of a double spells a numeral whose value is the shortest
decimal, so the double is read from its own text.

* **`Numeral.IsLiteral`** — the numerals that can be written, by the grammar of literals;
* **`Numeral.scan?_text`** — the numeral at the start of a text that goes on after it;
* **`Numeral.isLiteral_of_scan?`** — a numeral that is scanned is one that the text starts with;
* **`text_magnitudeNumeral`**, **`pattern_magnitudeNumeral`** — the text of a pattern is the text of
  a numeral that reads as it;
* **`readFinite?_canonicalChars`** — a finite double is read from its text, `-0` as `0`.
-/
import FormulaSheet.Number.Format
import FormulaSheet.Number.Numeral
import FormulaSheet.Proofs.Number.Bits
import FormulaSheet.Proofs.Number.Shortest
import FormulaSheet.Proofs.Text.Cut

namespace FormulaSheet.Number

open Text (Stops)

/-! ### Numerals as they are spelled -/

/-- What may continue a numeral: a digit, a point, or the marker of an exponent. -/
def continuesNumeral (c : Char) : Bool :=
  c.isDigit || c == '.' || c == 'e' || c == 'E'

/-- An exponent that is spelled as exponents are. -/
structure Exponent.IsSpelled (x : Exponent) : Prop where
  marker : x.marker = 'e' ∨ x.marker = 'E'
  sign : ∀ c, x.sign = some c → c = '+' ∨ c = '-'
  digits : ∀ c ∈ x.digits, c.isDigit = true
  ne_nil : x.digits ≠ []

/-- A numeral of the grammar of literals: digits on one side of the point at least, and an
exponent that is complete if there is one. -/
structure Numeral.IsLiteral (n : Numeral) : Prop where
  whole : ∀ c ∈ n.whole, c.isDigit = true
  fraction : ∀ c ∈ n.fraction.getD [], c.isDigit = true
  ne_nil : n.whole ≠ [] ∨ n.fraction.getD [] ≠ []
  exponent : ∀ x, n.exponent = some x → x.IsSpelled

/-- A numeral that is spelled as numerals are, with a digit before its point. -/
structure Numeral.IsSpelled (n : Numeral) : Prop where
  whole : ∀ c ∈ n.whole, c.isDigit = true
  ne_nil : n.whole ≠ []
  fraction : ∀ c ∈ n.fraction.getD [], c.isDigit = true
  exponent : ∀ x, n.exponent = some x → x.IsSpelled

theorem Numeral.IsSpelled.isLiteral {n : Numeral} (h : n.IsSpelled) : n.IsLiteral where
  whole := h.whole
  fraction := h.fraction
  ne_nil := .inl h.ne_nil
  exponent := h.exponent

/-- The sign of an exponent is the one that is written, for no digit is taken for a sign. -/
theorem Exponent.IsSpelled.scanSign_append {x : Exponent} (h : x.IsSpelled) (rest : List Char) :
    scanSign (x.sign.toList ++ x.digits ++ rest) = (x.sign, x.digits ++ rest) := by
  obtain ⟨marker, sign, digits⟩ := x
  cases sign with
  | some c => rcases h.sign c rfl with rfl | rfl <;> rfl
  | none =>
    cases digits with
    | nil => exact absurd rfl h.ne_nil
    | cons d ds =>
      have hd : d.isDigit = true := h.digits d (.head _)
      simp only [Option.toList_none, List.nil_append, List.cons_append]
      unfold scanSign
      split
      · next heq => simp only [List.cons.injEq] at heq; simp [heq.1] at hd
      · next heq => simp only [List.cons.injEq] at heq; simp [heq.1] at hd
      · rfl

theorem Exponent.scan?_text {x : Exponent} (h : x.IsSpelled) {rest : List Char}
    (hrest : Stops Char.isDigit rest) : Exponent.scan? (x.text ++ rest) = some (x, rest) := by
  have hsign := h.scanSign_append rest
  obtain ⟨marker, sign, digits⟩ := x
  have hmarker : marker = 'e' ∨ marker = 'E' := h.marker
  have hempty : digits.isEmpty = false := by simpa using h.ne_nil
  simp only [Exponent.text, List.cons_append, Exponent.scan?, hmarker, if_true, hsign,
    Text.takeWhile_append_of_stops h.digits hrest, Text.dropWhile_append_of_stops h.digits hrest,
    hempty, Bool.false_eq_true, if_false]

theorem Exponent.IsSpelled.isVisible {x : Exponent} (h : x.IsSpelled) {c : Char}
    (hc : c ∈ x.text) : Text.isVisible c = true := by
  rw [Exponent.text, List.mem_cons, List.mem_append, Option.mem_toList] at hc
  rcases hc with rfl | hc | hc
  · rcases h.marker with hmarker | hmarker <;> rw [hmarker] <;> decide
  · rcases h.sign c hc with rfl | rfl <;> decide
  · exact Text.isVisible_of_isDigit (h.digits c hc)

theorem Exponent.scan?_of_stops {rest : List Char} (hrest : Stops continuesNumeral rest) :
    Exponent.scan? rest = none := by
  cases rest with
  | nil => rfl
  | cons c cs =>
    have hc := hrest c rfl
    simp only [continuesNumeral, Bool.or_eq_false_iff, beq_eq_false_iff_ne] at hc
    rw [Exponent.scan?, if_neg]
    rintro (rfl | rfl)
    · exact hc.1.2 rfl
    · exact hc.2 rfl

namespace Numeral

variable {n : Numeral} {rest : List Char}

/-- What follows the digits of a numeral is neither a digit nor a point. -/
def StopsDigits (rest : List Char) : Prop :=
  Stops (fun c => c.isDigit || c == '.') rest

theorem IsSpelled.exists_digit (h : n.IsSpelled) :
    ∃ d tail, n.text = d :: tail ∧ d.isDigit = true := by
  obtain ⟨whole, fraction, exponent⟩ := n
  cases whole with
  | nil => exact absurd rfl h.ne_nil
  | cons d ds => exact ⟨d, _, rfl, h.whole d (.head _)⟩

/-- A literal starts with a digit or with its point. -/
theorem IsLiteral.exists_head (h : n.IsLiteral) :
    ∃ c tail, n.text = c :: tail ∧ (c.isDigit = true ∨ c = '.') := by
  obtain ⟨whole, fraction, exponent⟩ := n
  cases whole with
  | cons d ds => exact ⟨d, _, rfl, .inl (h.whole d (.head _))⟩
  | nil =>
    cases fraction with
    | some fraction => exact ⟨'.', _, rfl, .inr rfl⟩
    | none => exact absurd h.ne_nil (by simp)

theorem IsLiteral.isVisible (h : n.IsLiteral) {c : Char} (hc : c ∈ n.text) :
    Text.isVisible c = true := by
  obtain ⟨whole, fraction, exponent⟩ := n
  rw [text, List.mem_append, List.mem_append] at hc
  rcases hc with (hc | hc) | hc
  · exact Text.isVisible_of_isDigit (h.whole c hc)
  · cases fraction with
    | none => cases hc
    | some fraction =>
      rcases List.mem_cons.1 hc with rfl | hc
      · decide
      · exact Text.isVisible_of_isDigit (h.fraction c hc)
  · cases exponent with
    | none => cases hc
    | some x => exact (h.exponent x rfl).isVisible hc

theorem scanDigits?_text (h : n.IsLiteral) (hrest : StopsDigits rest) :
    scanDigits? (n.whole ++ n.fraction.elim [] ('.' :: ·) ++ rest) =
      some ({ n with exponent := none }, rest) := by
  obtain ⟨whole, fraction, exponent⟩ := n
  have hdigit : Stops Char.isDigit rest := hrest.mono fun c hc => by simp_all
  unfold scanDigits?
  cases fraction with
  | none =>
    have hne : whole.isEmpty = false := by simpa using h.ne_nil
    simp only [Option.elim_none, List.append_nil]
    rw [Text.takeWhile_append_of_stops h.whole hdigit,
      Text.dropWhile_append_of_stops h.whole hdigit]
    split
    · -- a numeral without a point is not followed by one
      next after => simpa using hrest '.' rfl
    · rw [hne]
      rfl
  | some fraction =>
    have hpoint : Stops Char.isDigit ('.' :: fraction ++ rest) := Text.stops_cons (by decide)
    have hfraction : ∀ c ∈ fraction, c.isDigit = true := h.fraction
    have hne : (whole.isEmpty && fraction.isEmpty) = false := by
      rw [Bool.eq_false_iff, ne_eq, Bool.and_eq_true, not_and_or, List.isEmpty_iff,
        List.isEmpty_iff]
      exact h.ne_nil
    simp only [Option.elim_some, List.append_assoc]
    rw [Text.takeWhile_append_of_stops h.whole hpoint,
      Text.dropWhile_append_of_stops h.whole hpoint]
    simp only [List.cons_append, Text.takeWhile_append_of_stops hfraction hdigit,
      Text.dropWhile_append_of_stops hfraction hdigit, hne]
    rfl

/-- The longest numeral at the start of a text is the one that was written there. -/
theorem scan?_text (h : n.IsLiteral) (hrest : Stops continuesNumeral rest) :
    scan? (n.text ++ rest) = some (n, rest) := by
  obtain ⟨whole, fraction, exponent⟩ := n
  rw [scan?, text]
  cases exponent with
  | none =>
    -- nothing that follows can be taken for an exponent
    have hstops : StopsDigits rest := hrest.mono fun c hc => by
      simp_all [continuesNumeral]
    rw [Option.elim_none, List.append_nil, scanDigits?_text h hstops]
    simp only [Option.map_some, Exponent.scan?_of_stops hrest]
  | some x =>
    have hx := h.exponent x rfl
    have hstops : StopsDigits (x.text ++ rest) := by
      refine Text.stops_cons ?_
      rcases hx.marker with hmarker | hmarker <;> rw [hmarker] <;> decide
    have hdigit : Stops Char.isDigit rest := hrest.mono fun c hc => by
      simp_all [continuesNumeral]
    rw [Option.elim_some, List.append_assoc _ x.text, scanDigits?_text h hstops]
    simp only [Option.map_some, Exponent.scan?_text hx hdigit]

end Numeral

/-! ### Numerals as they are scanned -/

theorem Exponent.eq_append_of_scanSign {text rest : List Char} {sign : Option Char}
    (h : scanSign text = (sign, rest)) :
    text = sign.toList ++ rest ∧ ∀ c, sign = some c → c = '+' ∨ c = '-' := by
  unfold scanSign at h
  split at h
  · obtain ⟨rfl, rfl⟩ := Prod.mk.inj h
    exact ⟨rfl, by simp⟩
  · obtain ⟨rfl, rfl⟩ := Prod.mk.inj h
    exact ⟨rfl, by simp⟩
  · obtain ⟨rfl, rfl⟩ := Prod.mk.inj h
    exact ⟨rfl, by simp⟩

theorem Exponent.isSpelled_of_scan? {text rest : List Char} {x : Exponent}
    (h : scan? text = some (x, rest)) : x.IsSpelled ∧ text = x.text ++ rest := by
  cases text with
  | nil => cases h
  | cons marker tail =>
    obtain ⟨sign, after, hsign⟩ : ∃ sign after, scanSign tail = (sign, after) := ⟨_, _, rfl⟩
    obtain ⟨htail, hchar⟩ := eq_append_of_scanSign hsign
    simp only [scan?, hsign] at h
    split at h
    · next hmarker =>
      split at h
      · cases h
      · next hne =>
        obtain ⟨rfl, rfl⟩ := Prod.mk.inj (Option.some.inj h)
        refine ⟨⟨hmarker, hchar, fun c hc => List.mem_takeWhile_imp hc, by simpa using hne⟩, ?_⟩
        rw [Exponent.text, List.cons_append, List.append_assoc, List.takeWhile_append_dropWhile,
          htail]
    · cases h

namespace Numeral

variable {n : Numeral} {text rest : List Char}

theorem isLiteral_of_scanDigits? (h : scanDigits? text = some (n, rest)) :
    n.IsLiteral ∧ n.exponent = none ∧ text = n.text ++ rest := by
  have hwhole : ∀ c ∈ text.takeWhile Char.isDigit, c.isDigit = true :=
    fun c hc => List.mem_takeWhile_imp hc
  unfold scanDigits? at h
  split at h
  · next after hafter =>
    -- the text is the first digits, the point, and what stands behind it
    have hsplit := hafter ▸ (List.takeWhile_append_dropWhile (p := Char.isDigit) (l := text)).symm
    dsimp only at h
    split at h
    · cases h
    · next hne =>
      obtain ⟨rfl, rfl⟩ := Prod.mk.inj (Option.some.inj h)
      rw [Bool.and_eq_true, not_and_or, List.isEmpty_iff, List.isEmpty_iff] at hne
      refine ⟨⟨hwhole, fun c hc => List.mem_takeWhile_imp hc, hne, by simp⟩, rfl, ?_⟩
      simpa [Numeral.text] using hsplit
  · dsimp only at h
    split at h
    · cases h
    · next hne =>
      obtain ⟨rfl, rfl⟩ := Prod.mk.inj (Option.some.inj h)
      exact ⟨⟨hwhole, by simp, .inl (by simpa using hne), by simp⟩, rfl,
        by simp [Numeral.text]⟩

/-- A numeral that is scanned is a literal, and the text starts with it. -/
theorem isLiteral_of_scan? (h : scan? text = some (n, rest)) :
    n.IsLiteral ∧ text = n.text ++ rest := by
  obtain ⟨⟨digits, after⟩, hdigits, heq⟩ := Option.map_eq_some_iff.1 h
  obtain ⟨hliteral, hnone, rfl⟩ := isLiteral_of_scanDigits? hdigits
  dsimp only at heq
  split at heq
  · next x tail hx =>
    obtain ⟨rfl, rfl⟩ := Prod.mk.inj heq
    obtain ⟨hspelled, rfl⟩ := Exponent.isSpelled_of_scan? hx
    refine ⟨⟨hliteral.whole, hliteral.fraction, hliteral.ne_nil, ?_⟩, ?_⟩
    · intro y hy
      obtain rfl := Option.some.inj hy
      exact hspelled
    · simp [Numeral.text, hnone]
  · obtain ⟨rfl, rfl⟩ := Prod.mk.inj heq
    exact ⟨hliteral, rfl⟩

end Numeral

/-! ### The numeral of a decimal -/

namespace Decimal

/-- The exponent that is written for a power of ten. -/
def exponentOf (power : Int) : Exponent where
  marker := 'e'
  sign := if power < 0 then some '-' else none
  digits := Nat.toDigits 10 power.natAbs

/-- The numeral with the point among the digits. -/
def positional (x : Decimal) : Numeral :=
  let digits := Nat.toDigits 10 x.digits
  match x.scale with
  | .ofNat zeros => ⟨digits ++ List.replicate zeros '0', none, none⟩
  | .negSucc k =>
    let places := k + 1
    if places < digits.length then
      ⟨digits.take (digits.length - places), some (digits.drop (digits.length - places)), none⟩
    else ⟨['0'], some (List.replicate (places - digits.length) '0' ++ digits), none⟩

/-- The numeral with an exponent. -/
def exponential (x : Decimal) : Numeral :=
  let rest := (Nat.toDigits 10 x.digits).drop 1
  ⟨(Nat.toDigits 10 x.digits).take 1, if rest.isEmpty then none else some rest,
    some (exponentOf x.leadingPower)⟩

/-- The numeral that a decimal is written as. -/
def numeral (x : Decimal) : Numeral :=
  if -5 ≤ x.leadingPower ∧ x.leadingPower ≤ 14 then x.positional else x.exponential

theorem text_positional (x : Decimal) : x.positional.text = x.positionalText := by
  unfold positional positionalText
  cases x.scale with
  | ofNat zeros => simp [Numeral.text]
  | negSucc k =>
    dsimp only
    split <;> simp [Numeral.text]

theorem text_exponential (x : Decimal) : x.exponential.text = x.exponentText 'e' := by
  have hsigned : ∀ power, (exponentOf power).text = 'e' :: signedText power := by
    intro power
    unfold exponentOf Exponent.text signedText
    cases power with
    | ofNat n => simp
    | negSucc n => simp [Int.negSucc_lt_zero]
  unfold exponential exponentText Numeral.text
  dsimp only
  rw [Option.elim_some, hsigned]
  split <;> simp

theorem text_numeral (x : Decimal) : x.numeral.text = x.text sheetStyle := by
  unfold numeral text sheetStyle
  dsimp only
  split
  · exact x.text_positional
  · exact x.text_exponential

theorem isDigit_of_mem_toDigits {n : Nat} {c : Char} (h : c ∈ Nat.toDigits 10 n) :
    c.isDigit = true :=
  Nat.isDigit_of_mem_toDigits (by omega) (by omega) h

theorem isDigit_of_mem_replicate {k : Nat} {c : Char} (h : c ∈ List.replicate k '0') :
    c.isDigit = true := by
  rw [List.eq_of_mem_replicate h]
  decide

theorem isSpelled_exponentOf (power : Int) : (exponentOf power).IsSpelled where
  marker := .inl rfl
  sign c hc := by
    unfold exponentOf at hc
    dsimp only at hc
    split at hc
    · exact .inr (Option.some.inj hc).symm
    · cases hc
  digits c hc := isDigit_of_mem_toDigits hc
  ne_nil := Nat.toDigits_ne_nil

theorem take_toDigits_ne_nil {k n : Nat} (h : 0 < k) : (Nat.toDigits 10 n).take k ≠ [] := by
  rw [ne_eq, List.take_eq_nil_iff, not_or]
  exact ⟨by omega, Nat.toDigits_ne_nil⟩

theorem isSpelled_positional (x : Decimal) : x.positional.IsSpelled := by
  unfold positional
  cases x.scale with
  | ofNat zeros =>
    refine ⟨fun c hc => ?_, List.append_ne_nil_of_left_ne_nil Nat.toDigits_ne_nil _, by simp,
      by simp⟩
    rcases List.mem_append.1 hc with hc | hc
    · exact isDigit_of_mem_toDigits hc
    · exact isDigit_of_mem_replicate hc
  | negSucc k =>
    -- the point stands among the digits, or zeros stand between it and the first of them
    dsimp only
    split
    · next hplaces =>
      exact ⟨fun c hc => isDigit_of_mem_toDigits (List.mem_of_mem_take hc),
        take_toDigits_ne_nil (by omega),
        fun c hc => isDigit_of_mem_toDigits (List.mem_of_mem_drop hc), by simp⟩
    · refine ⟨by simp, by simp, fun c hc => ?_, by simp⟩
      rcases List.mem_append.1 hc with hc | hc
      · exact isDigit_of_mem_replicate hc
      · exact isDigit_of_mem_toDigits hc

theorem isSpelled_exponential (x : Decimal) : x.exponential.IsSpelled where
  whole c hc := isDigit_of_mem_toDigits (List.mem_of_mem_take hc)
  ne_nil := take_toDigits_ne_nil (by omega)
  fraction c hc := by
    unfold exponential at hc
    dsimp only at hc
    split at hc
    · cases hc
    · exact isDigit_of_mem_toDigits (List.mem_of_mem_drop hc)
  exponent y hy := by
    obtain rfl := Option.some.inj hy
    exact isSpelled_exponentOf _

theorem isSpelled_numeral (x : Decimal) : x.numeral.IsSpelled := by
  unfold numeral
  split
  · exact x.isSpelled_positional
  · exact x.isSpelled_exponential

/-- The value of a numeral that writes a decimal, as a decimal. -/
def ofNumeral (n : Numeral) : Decimal :=
  ⟨n.significand, n.scale⟩

theorem value_exponentOf (power : Int) : (exponentOf power).value = power := by
  unfold exponentOf Exponent.value
  dsimp only
  rw [Nat.ofDigitChars_ten_toDigits]
  by_cases hneg : power < 0
  · rw [if_pos hneg, if_pos rfl]
    omega
  · rw [if_neg hneg, if_neg (by simp)]
    omega

theorem ofNumeral_exponential (x : Decimal) : ofNumeral x.exponential = x := by
  have hrest : ∀ rest : List Char, (if rest.isEmpty then none else some rest).getD [] = rest := by
    intro rest
    cases rest <;> rfl
  -- the point stands behind the first digit, so the exponent makes up for all the others
  have hlength := Nat.length_toDigits_pos (b := 10) (n := x.digits)
  obtain ⟨digits, scale⟩ := x
  simp only [ofNumeral, exponential, Numeral.significand, Numeral.scale, hrest, Option.elim_some,
    value_exponentOf, leadingPower, List.take_append_drop, Nat.ofDigitChars_ten_toDigits,
    List.length_drop, Decimal.mk.injEq, true_and]
  omega

theorem contains_ofNumeral_positional {x : Decimal} {p : Nat} (h : contains p x = true) :
    contains p (ofNumeral x.positional) = true := by
  obtain ⟨digits, scale⟩ := x
  cases scale with
  | ofNat zeros =>
    -- the zeros at the end become digits, and the decimal another one of the same value
    have hnumeral : ofNumeral (positional ⟨digits, .ofNat zeros⟩) = ⟨digits * 10 ^ zeros, 0⟩ := by
      simp [ofNumeral, positional, Numeral.significand, Numeral.scale, Nat.ofDigitChars_append,
        mul_comm]
    rw [hnumeral, contains_iff]
    rw [contains_iff] at h
    simpa using h
  | negSucc k =>
    have hnumeral : ofNumeral (positional ⟨digits, .negSucc k⟩) = ⟨digits, .negSucc k⟩ := by
      -- the digits stay the same, with zeros before them at most
      unfold positional
      dsimp only
      split
      · next hplaces =>
        simp [ofNumeral, Numeral.significand, Numeral.scale, Int.negSucc_eq]
        omega
      · next hplaces =>
        simp [ofNumeral, Numeral.significand, Numeral.scale, Int.negSucc_eq,
          Nat.ofDigitChars_append, Nat.ofDigitChars_cons]
        omega
    rw [hnumeral]
    exact h

/-- The numeral of a decimal in the interval of a double reads as that double. -/
theorem pattern_numeral {x : Decimal} {p : Nat} (hp : 0 < p) (hfinite : p < Binary64.infinity)
    (h : contains p x = true) : x.numeral.pattern = p := by
  refine ofDecimal_of_contains (x := ofNumeral x.numeral) hp hfinite ?_
  unfold numeral
  split
  · exact contains_ofNumeral_positional h
  · rw [ofNumeral_exponential]
    exact h

end Decimal

/-! ### The text of a double -/

/-- The numeral that a pattern is written as. -/
def magnitudeNumeral (p : Nat) : Numeral :=
  if p = 0 then ⟨['0'], none, none⟩ else (Decimal.shortest p).numeral

section Magnitude

variable {p : Nat}

theorem isSpelled_magnitudeNumeral (p : Nat) : (magnitudeNumeral p).IsSpelled := by
  unfold magnitudeNumeral
  split
  · exact ⟨by simp, by simp, by simp, by simp⟩
  · exact Decimal.isSpelled_numeral _

theorem text_magnitudeNumeral (hp : p < Binary64.infinity) :
    (magnitudeNumeral p).text = magnitudeText p := by
  unfold magnitudeNumeral magnitudeText
  rw [if_pos hp]
  split
  · rfl
  · exact Decimal.text_numeral _

/-- A finite pattern is read from the numeral that it is written as. -/
theorem pattern_magnitudeNumeral (hp : p < Binary64.infinity) :
    (magnitudeNumeral p).pattern = p := by
  unfold magnitudeNumeral
  split
  · next hzero =>
    rw [hzero]
    rfl
  · next hzero =>
    have hpos : 0 < p := Nat.pos_of_ne_zero hzero
    exact Decimal.pattern_numeral hpos hp (Decimal.contains_shortest hpos)

end Magnitude

/-- A finite double is written with its sign, but for `-0`. -/
theorem canonicalChars_of_isFinite {x : Float} (h : x.isFinite = true) :
    canonicalChars x = if isNegative x = true ∧ magnitude x ≠ 0
      then '-' :: magnitudeText (magnitude x) else magnitudeText (magnitude x) := by
  have hp := isFinite_iff.1 h
  unfold canonicalChars
  rw [if_neg (by omega)]

theorem isVisible_canonicalChars {x : Float} (h : x.isFinite = true) {c : Char}
    (hc : c ∈ canonicalChars x) : Text.isVisible c = true := by
  have hp := isFinite_iff.1 h
  have hmagnitude : ∀ d ∈ magnitudeText (magnitude x), Text.isVisible d = true := by
    intro d hd
    rw [← text_magnitudeNumeral hp] at hd
    exact (isSpelled_magnitudeNumeral _).isLiteral.isVisible hd
  rw [canonicalChars_of_isFinite h] at hc
  split at hc
  · rcases List.mem_cons.1 hc with rfl | hc
    · decide
    · exact hmagnitude c hc
  · exact hmagnitude c hc

/-- A double with no sign at zero. -/
def withoutNegativeZero (x : Float) : Float :=
  if magnitude x = 0 then ofMagnitude false 0 else x

theorem readUnsigned?_magnitudeText {p : Nat} (hp : p < Binary64.infinity) (negative : Bool) :
    readUnsigned? negative (magnitudeText p) = some (ofMagnitude negative p) := by
  have hscan := Numeral.scan?_text (isSpelled_magnitudeNumeral p).isLiteral
    (Text.stops_nil continuesNumeral)
  rw [List.append_nil, text_magnitudeNumeral hp] at hscan
  rw [readUnsigned?, hscan]
  dsimp only
  rw [pattern_magnitudeNumeral hp]

theorem read?_of_isDigit {d : Char} {tail : List Char} (hd : d.isDigit = true) :
    read? (d :: tail) = readUnsigned? false (d :: tail) := by
  unfold read?
  split
  · next heq =>
    obtain ⟨rfl, -⟩ := List.cons.inj heq
    cases hd
  · next heq =>
    obtain ⟨rfl, -⟩ := List.cons.inj heq
    cases hd
  · rfl

/-- A finite double is read from its text, up to the sign of zero. -/
theorem readFinite?_canonicalChars {x : Float} (h : x.isFinite = true) :
    readFinite? (canonicalChars x) = some (withoutNegativeZero x) := by
  have hp := isFinite_iff.1 h
  have hread : read? (canonicalChars x) =
      some (ofMagnitude (isNegative x && magnitude x ≠ 0) (magnitude x)) := by
    rw [canonicalChars_of_isFinite h]
    by_cases hminus : isNegative x = true ∧ magnitude x ≠ 0
    · rw [if_pos hminus, read?, readUnsigned?_magnitudeText hp]
      simp [hminus]
    · -- no sign is written, and none is read before a digit
      rw [if_neg hminus]
      obtain ⟨d, tail, htext, hd⟩ := (isSpelled_magnitudeNumeral (magnitude x)).exists_digit
      rw [text_magnitudeNumeral hp] at htext
      rw [htext, read?_of_isDigit hd, ← htext, readUnsigned?_magnitudeText hp]
      have hsign : (isNegative x && decide (magnitude x ≠ 0)) = false := by simpa using hminus
      rw [hsign]
  -- what is read has the sign of the double, but for that of zero
  have hsame : ofMagnitude (isNegative x && magnitude x ≠ 0) (magnitude x) =
      withoutNegativeZero x := by
    unfold withoutNegativeZero
    split
    · next hzero => simp [hzero]
    · next hzero =>
      simp only [hzero, ne_eq, not_false_eq_true, decide_true, Bool.and_true]
      exact ofMagnitude_magnitude h
  rw [readFinite?, hread, Option.filter_some, isFinite_ofMagnitude hp, if_pos rfl, hsame]

theorem canonicalChars_withoutNegativeZero (x : Float) :
    canonicalChars (withoutNegativeZero x) = canonicalChars x := by
  unfold withoutNegativeZero
  split
  · next hzero =>
    -- neither zero is written with a sign
    have hmagnitude : magnitude (ofMagnitude false 0) = 0 := magnitude_ofMagnitude (by decide)
    unfold canonicalChars
    simp [hzero, hmagnitude]
  · rfl

theorem withoutNegativeZero_beq {x : Float} (h : x.isFinite = true) :
    (withoutNegativeZero x == x) = true := by
  unfold withoutNegativeZero
  split
  · next hzero => exact beq_of_magnitude_eq_zero (magnitude_ofMagnitude (by decide)) hzero
  · exact beq_self_of_isFinite h

theorem beq_withoutNegativeZero {x : Float} (h : x.isFinite = true) :
    (x == withoutNegativeZero x) = true := by
  unfold withoutNegativeZero
  split
  · next hzero => exact beq_of_magnitude_eq_zero hzero (magnitude_ofMagnitude (by decide))
  · exact beq_self_of_isFinite h

/-- Finite doubles that are equal are written alike. -/
theorem canonicalChars_eq_of_beq {x y : Float} (hx : x.isFinite = true) (hy : y.isFinite = true)
    (h : (x == y) = true) : canonicalChars x = canonicalChars y := by
  rcases eq_or_magnitude_eq_zero_of_beq hx hy h with rfl | ⟨hzero, hzero'⟩
  · rfl
  · unfold canonicalChars
    simp [hzero, hzero']

/-- Only `-0` has a sign to lose. -/
theorem withoutNegativeZero_eq_self {x : Float} (h : x.isFinite = true) (hne : x ≠ -0) :
    withoutNegativeZero x = x := by
  unfold withoutNegativeZero
  split
  · next hzero =>
    rcases (magnitude_eq_zero_iff h).1 hzero with rfl | hx
    · decide +kernel
    · exact absurd hx hne
  · rfl

end FormulaSheet.Number
