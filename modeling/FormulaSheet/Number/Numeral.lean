/-
Decimal numerals.

A numeral is digits with an optional point, at least one digit on one side of it, and an
optional exponent: `3`, `2.5`, `.5`, `5.`, `1e-3`.  It is kept as it is spelled, so that a
numeral found at the start of a text gives that text back, and so that its value is exact
however many digits it has.

* **`Numeral.scan?`** — the longest numeral at the start of a text, and what follows it;
* **`Numeral.pattern`** — the double nearest to a numeral's exact value;
* **`read?`** — a whole text as a double: an optional sign, then a numeral or one of the words
  `inf`, `infinity` and `nan` in any case.
-/
import FormulaSheet.Number.Binary64

namespace FormulaSheet.Number

/-- An exponent as it is spelled: its marker (`e` or `E`), its sign if written, its digits. -/
structure Exponent where
  marker : Char
  sign : Option Char
  digits : List Char
deriving Repr, DecidableEq

/-- A decimal numeral as it is spelled.  `fraction` is absent if no point is written. -/
structure Numeral where
  whole : List Char
  fraction : Option (List Char)
  exponent : Option Exponent
deriving Repr, DecidableEq

namespace Exponent

/-- The spelling of an exponent. -/
def text (x : Exponent) : List Char :=
  x.marker :: (x.sign.toList ++ x.digits)

/-- The power of ten that an exponent stands for. -/
def value (x : Exponent) : Int :=
  let n : Int := Nat.ofDigitChars 10 x.digits 0
  if x.sign = some '-' then -n else n

/-- The sign at the start of a text, if any, and what follows it. -/
def scanSign : List Char → Option Char × List Char
  | '+' :: rest => (some '+', rest)
  | '-' :: rest => (some '-', rest)
  | rest => (none, rest)

/-- The exponent at the start of a text and what follows it.  A marker with no digit after
it, or after its sign, is no exponent. -/
def scan? : List Char → Option (Exponent × List Char)
  | [] => none
  | marker :: rest =>
    if marker = 'e' ∨ marker = 'E' then
      let (sign, rest) := scanSign rest
      let digits := rest.takeWhile Char.isDigit
      if digits.isEmpty then none
      else some (⟨marker, sign, digits⟩, rest.dropWhile Char.isDigit)
    else none

end Exponent

namespace Numeral

/-- The spelling of a numeral. -/
def text (n : Numeral) : List Char :=
  n.whole ++ (n.fraction.elim [] ('.' :: ·)) ++ (n.exponent.elim [] Exponent.text)

/-- All digits of a numeral but the exponent's, read as a whole number. -/
def significand (n : Numeral) : Nat :=
  Nat.ofDigitChars 10 (n.whole ++ n.fraction.getD []) 0

/-- The power of ten that scales the significand. -/
def scale (n : Numeral) : Int :=
  n.exponent.elim 0 Exponent.value - (n.fraction.getD []).length

/-- The pattern of the double nearest to the value of a numeral. -/
def pattern (n : Numeral) : Nat :=
  Binary64.ofDecimal n.significand n.scale

/-- The digits at the start of a text, with a point among or beside them, and what follows. -/
def scanDigits? (text : List Char) : Option (Numeral × List Char) :=
  let whole := text.takeWhile Char.isDigit
  match text.dropWhile Char.isDigit with
  | '.' :: rest =>
    let fraction := rest.takeWhile Char.isDigit
    if whole.isEmpty && fraction.isEmpty then none
    else some (⟨whole, some fraction, none⟩, rest.dropWhile Char.isDigit)
  | rest => if whole.isEmpty then none else some (⟨whole, none, none⟩, rest)

/-- The longest numeral at the start of a text and what follows it. -/
def scan? (text : List Char) : Option (Numeral × List Char) :=
  (scanDigits? text).map fun (digits, rest) =>
    match Exponent.scan? rest with
    | some (exponent, rest) => ({ digits with exponent := some exponent }, rest)
    | none => (digits, rest)

/-- The digits of a numeral take at least one character. -/
theorem length_lt_of_scanDigits? {text rest : List Char} {n : Numeral}
    (h : scanDigits? text = some (n, rest)) : rest.length < text.length := by
  have hsplit := congrArg List.length
    (List.takeWhile_append_dropWhile (p := Char.isDigit) (l := text))
  unfold scanDigits? at h
  simp only [List.length_append] at hsplit
  split at h
  · next after hafter =>
    have hle := (List.dropWhile_sublist Char.isDigit (l := after)).length_le
    rw [hafter, List.length_cons] at hsplit
    dsimp only at h
    split at h
    · simp at h
    · simp at h
      rw [← h.2]
      omega
  · dsimp only at h
    split at h
    · simp at h
    · next hne =>
      simp at h
      have hpos : 0 < (text.takeWhile Char.isDigit).length := by
        cases hw : text.takeWhile Char.isDigit with
        | nil => simp [hw] at hne
        | cons c cs => simp
      rw [← h.2]
      omega

/-- An exponent takes characters from the text it starts. -/
theorem length_lt_of_scanExponent? {text rest : List Char} {x : Exponent}
    (h : Exponent.scan? text = some (x, rest)) : rest.length < text.length := by
  cases text with
  | nil => simp [Exponent.scan?] at h
  | cons marker tail =>
    simp only [Exponent.scan?] at h
    have hsign : (Exponent.scanSign tail).2.length ≤ tail.length := by
      unfold Exponent.scanSign
      split <;> simp
    have hle := (List.dropWhile_sublist Char.isDigit (l := (Exponent.scanSign tail).2)).length_le
    split at h
    · split at h
      · simp at h
      · simp at h
        rw [← h.2, List.length_cons]
        omega
    · simp at h

/-- A numeral takes at least one character. -/
theorem length_lt_of_scan? {text rest : List Char} {n : Numeral}
    (h : scan? text = some (n, rest)) : rest.length < text.length := by
  obtain ⟨⟨digits, after⟩, hdigits, heq⟩ := Option.map_eq_some_iff.1 h
  have hlt := length_lt_of_scanDigits? hdigits
  simp only at heq
  split at heq
  · next exponent tail hexp =>
    have := length_lt_of_scanExponent? hexp
    simp at heq
    rw [← heq.2]
    omega
  · simp at heq
    rw [← heq.2]
    exact hlt

end Numeral

/-- A number without its sign: a numeral, or a word for infinity or for no number. -/
def readUnsigned? (negative : Bool) (text : List Char) : Option Float :=
  match Numeral.scan? text with
  | some (numeral, []) => some (ofMagnitude negative numeral.pattern)
  | some _ => none
  | none =>
    match String.ofList (text.map Char.toLower) with
    | "inf" | "infinity" => some (ofMagnitude negative Binary64.infinity)
    | "nan" => some (ofMagnitude false Binary64.quietNaN)
    | _ => none

/-- A whole text as a double; a numeral beyond the largest double reads as infinity. -/
def read? (text : List Char) : Option Float :=
  match text with
  | '-' :: rest => readUnsigned? true rest
  | '+' :: rest => readUnsigned? false rest
  | _ => readUnsigned? false text

/-- A whole text as a finite double. -/
def readFinite? (text : List Char) : Option Float :=
  (read? text).filter Float.isFinite

end FormulaSheet.Number
