/-
Correct rounding.

A number rounds to the double that is nearest to it, of two equally near to the one with the even
pattern.  Infinity counts as the power of two above the largest double, so what is nearer to it than
to any double, or half way, is too large.  At most one double fits a number: of two, each would be
as near as the other, both even, and a third one would lie between them, nearer than both.

* **`RoundsTo`**, **`RoundsTo.unique`** — the double that a number rounds to;
* **`roundsTo_infinity_iff`**, **`roundsTo_zero_iff`** — what is too large, and what is too small;
* **`roundsTo_ofDecimal`** — a decimal is read as the double it rounds to, also where its power of
  ten is so far out that it is not computed;
* **`Numeral.value`**, **`Numeral.roundsTo_pattern`** — the number that a numeral denotes, and the
  double it is read as.
-/
import FormulaSheet.Number.Numeral
import FormulaSheet.Proofs.Number.Shortest
import Mathlib.Algebra.Order.Field.Basic
import Mathlib.Data.Rat.Cast.Order
import Mathlib.Tactic.FieldSimp
import Mathlib.Tactic.Linarith
import Mathlib.Tactic.NormNum
import Mathlib.Tactic.Positivity

namespace FormulaSheet.Number

open Binary64

/-! ### The nearest double -/

/-- The value of a pattern.  Infinity has the value of the power of two above the largest double. -/
def patternValue (p : Nat) : ℚ := units p / 2 ^ 1074

/-- The double of a pattern is nearest to a number; if another one is equally near, the pattern is
even. -/
structure RoundsTo (q : ℚ) (p : Nat) : Prop where
  le_infinity : p ≤ infinity
  nearest : ∀ other ≤ infinity, |q - patternValue p| ≤ |q - patternValue other|
  even : ∀ other ≤ infinity, other ≠ p → |q - patternValue p| = |q - patternValue other| →
    p % 2 = 0

theorem patternValue_strictMono : StrictMono patternValue := by
  intro p p' h
  have hunits : (units p : ℚ) < units p' := by exact_mod_cast units_strictMono h
  exact div_lt_div_of_pos_right hunits (by positivity)

theorem patternValue_zero : patternValue 0 = 0 := by
  rw [patternValue, show units 0 = 0 from rfl, Nat.cast_zero, zero_div]

section Nearer

variable {a b q : ℚ}

/-- The lower of two numbers is as near as the upper one up to half way between them. -/
theorem abs_sub_le_abs_sub_iff_le (h : a < b) : |q - a| ≤ |q - b| ↔ 2 * q ≤ a + b := by
  rcases abs_cases (q - a) with ha | ha <;> rcases abs_cases (q - b) with hb | hb <;>
    constructor <;> intro hle <;> linarith

/-- The upper of two numbers is as near as the lower one from half way between them. -/
theorem abs_sub_le_abs_sub_iff_ge (h : a < b) : |q - b| ≤ |q - a| ↔ a + b ≤ 2 * q := by
  rcases abs_cases (q - a) with ha | ha <;> rcases abs_cases (q - b) with hb | hb <;>
    constructor <;> intro hle <;> linarith

end Nearer

section Rounds

variable {q : ℚ} {p p' : Nat}

theorem RoundsTo.not_lt (h : RoundsTo q p) (h' : RoundsTo q p') : ¬ p < p' := by
  intro hlt
  have hequal : |q - patternValue p| = |q - patternValue p'| :=
    le_antisymm (h.nearest p' h'.le_infinity) (h'.nearest p h.le_infinity)
  have heven := h.even p' h'.le_infinity (by omega) hequal
  have heven' := h'.even p h.le_infinity (by omega) hequal.symm
  -- both are even, so there is a pattern between them
  have hbetween : p + 1 ≤ infinity := hlt.trans_le h'.le_infinity |>.nat_succ_le
  have hself : patternValue p < patternValue (p + 1) := patternValue_strictMono (by omega)
  have hnext : patternValue (p + 1) < patternValue p' := patternValue_strictMono (by omega)
  have hlow := (abs_sub_le_abs_sub_iff_le hself).1 (h.nearest _ hbetween)
  have hhigh := (abs_sub_le_abs_sub_iff_ge hnext).1 (h'.nearest _ hbetween)
  linarith

/-- A number rounds to one double only. -/
theorem RoundsTo.unique (h : RoundsTo q p) (h' : RoundsTo q p') : p = p' :=
  Nat.le_antisymm (Nat.not_lt.1 (h'.not_lt h)) (Nat.not_lt.1 (h.not_lt h'))

/-- A double is nearest to what lies half way to its neighbours at most. -/
theorem RoundsTo.of_halves (hle : p ≤ infinity)
    (hlow : 0 < p → patternValue (p - 1) + patternValue p ≤ 2 * q)
    (hhigh : p < infinity → 2 * q ≤ patternValue p + patternValue (p + 1))
    (heven : (0 < p ∧ patternValue (p - 1) + patternValue p = 2 * q) ∨
      (p < infinity ∧ 2 * q = patternValue p + patternValue (p + 1)) → p % 2 = 0) :
    RoundsTo q p := by
  have hbelow : ∀ other < p, patternValue other ≤ patternValue (p - 1) :=
    fun other hlt => patternValue_strictMono.monotone (Nat.le_pred_of_lt hlt)
  have habove : ∀ other > p, patternValue (p + 1) ≤ patternValue other :=
    fun other hgt => patternValue_strictMono.monotone hgt
  refine ⟨hle, fun other hother => ?_, fun other hother hne hequal => heven ?_⟩
  · rcases Nat.lt_trichotomy other p with hlt | rfl | hgt
    · refine (abs_sub_le_abs_sub_iff_ge (patternValue_strictMono hlt)).2 ?_
      linarith [hbelow other hlt, hlow (by omega)]
    · exact le_refl _
    · refine (abs_sub_le_abs_sub_iff_le (patternValue_strictMono hgt)).2 ?_
      linarith [habove other hgt, hhigh (by omega)]
  · -- what is as near lies on the other side of a half, and no neighbour is passed over
    rcases Nat.lt_or_gt_of_ne hne with hlt | hgt
    · have hhalf := (abs_sub_le_abs_sub_iff_le (patternValue_strictMono hlt)).1 hequal.ge
      exact .inl ⟨by omega, by linarith [hbelow other hlt, hlow (by omega)]⟩
    · have hhalf := (abs_sub_le_abs_sub_iff_ge (patternValue_strictMono hgt)).1 hequal.ge
      exact .inr ⟨by omega, by linarith [habove other hgt, hhigh (by omega)]⟩

theorem infinity_even : infinity % 2 = 0 := by decide +kernel

theorem roundsTo_infinity_iff_halves :
    RoundsTo q infinity ↔ patternValue (infinity - 1) + patternValue infinity ≤ 2 * q := by
  have hlt : patternValue (infinity - 1) < patternValue infinity :=
    patternValue_strictMono (by decide +kernel)
  constructor
  · intro h
    exact (abs_sub_le_abs_sub_iff_ge hlt).1 (h.nearest _ (Nat.sub_le _ _))
  · intro h
    exact .of_halves (Nat.le_refl _) (fun _ => h) (fun hlt => absurd hlt (Nat.lt_irrefl _))
      fun _ => infinity_even

theorem roundsTo_zero_iff_halves : RoundsTo q 0 ↔ 2 * q ≤ patternValue 0 + patternValue 1 := by
  have hlt : patternValue 0 < patternValue 1 := patternValue_strictMono Nat.one_pos
  constructor
  · intro h
    exact (abs_sub_le_abs_sub_iff_le hlt).1 (h.nearest 1 (by decide +kernel))
  · intro h
    exact .of_halves (Nat.zero_le _) (fun hlt => absurd hlt (Nat.lt_irrefl _)) (fun _ => h)
      fun _ => rfl

/-- A number is too small up to half of the smallest positive double. -/
theorem roundsTo_zero_iff : RoundsTo q 0 ↔ q ≤ 1 / 2 ^ 1075 := by
  have hone : patternValue 1 = 1 / 2 ^ 1074 := by
    rw [patternValue, show units 1 = 1 from rfl, Nat.cast_one]
  have hsucc : (2 : ℚ) ^ 1075 = 2 ^ 1074 * 2 := pow_succ 2 1074
  rw [roundsTo_zero_iff_halves, patternValue_zero, hone, hsucc, ← div_div, zero_add]
  exact (le_div_iff₀' zero_lt_two).symm

theorem patternValue_infinity : patternValue infinity = 2 ^ 1024 := by
  rw [patternValue, units_infinity, Nat.cast_pow, Nat.cast_two, div_eq_iff (by positivity)]
  exact pow_add 2 1024 1074

/-- The largest double has 53 places, the last of which stands for the power 971 of two. -/
theorem patternValue_largest : patternValue (infinity - 1) = (2 ^ 53 - 1) * 2 ^ 971 := by
  have hplaces : infinity - 1 = 2045 * 2 ^ 52 + (2 ^ 53 - 1) := rfl
  have hunits := units_eq (s := 2045) (r := 2 ^ 53 - 1) (by omega) (by omega)
  have hsplit : (2 : ℚ) ^ 2045 = 2 ^ 971 * 2 ^ 1074 := pow_add 2 971 1074
  rw [patternValue, hplaces, hunits, Nat.cast_mul, Nat.cast_pow, Nat.cast_two, hsplit, ← mul_assoc,
    mul_div_cancel_right₀ _ (by positivity)]
  norm_num

/-- A number is too large from half way between the largest double and the power of two above it. -/
theorem roundsTo_infinity_iff : RoundsTo q infinity ↔ 2 ^ 1024 - 2 ^ 970 ≤ q := by
  have hlargest : patternValue (infinity - 1) = 2 ^ 1024 - 2 * 2 ^ 970 := by
    have hpower : (2 : ℚ) ^ 1024 = 2 ^ 53 * 2 ^ 971 := pow_add 2 53 971
    have hplace : (2 : ℚ) ^ 971 = 2 * 2 ^ 970 := pow_succ' 2 970
    rw [patternValue_largest, sub_mul, one_mul, hpower, hplace]
  rw [roundsTo_infinity_iff_halves, hlargest, patternValue_infinity]
  generalize (2 : ℚ) ^ 1024 = limit, (2 : ℚ) ^ 970 = half
  constructor <;> intro h <;> linarith

end Rounds

/-! ### Fractions -/

section Fractions

variable {num den : Nat}

/-- The half way between two doubles and a fraction, counted in units and without a division. -/
theorem halves_le_iff {p p' : Nat} (hden : 0 < den) :
    patternValue p + patternValue p' ≤ 2 * ((num : ℚ) / den) ↔
      (units p + units p') * den ≤ 2 * (num * 2 ^ 1074) := by
  have hunit : (0 : ℚ) < 2 ^ 1074 := by positivity
  have hden' : (0 : ℚ) < den := by exact_mod_cast hden
  rw [patternValue, patternValue, ← add_div, ← mul_div_assoc, div_le_div_iff₀ hunit hden',
    ← Nat.cast_le (α := ℚ), Nat.cast_mul _ den, Nat.cast_add, Nat.cast_mul 2, Nat.cast_mul num,
    Nat.cast_pow, Nat.cast_two, mul_assoc]

theorem le_halves_iff {p p' : Nat} (hden : 0 < den) :
    2 * ((num : ℚ) / den) ≤ patternValue p + patternValue p' ↔
      2 * (num * 2 ^ 1074) ≤ (units p + units p') * den := by
  have hunit : (0 : ℚ) < 2 ^ 1074 := by positivity
  have hden' : (0 : ℚ) < den := by exact_mod_cast hden
  rw [patternValue, patternValue, ← add_div, ← mul_div_assoc, div_le_div_iff₀ hden' hunit,
    ← Nat.cast_le (α := ℚ), Nat.cast_mul _ den, Nat.cast_add, Nat.cast_mul 2, Nat.cast_mul num,
    Nat.cast_pow, Nat.cast_two, mul_assoc]

/-- A fraction in the interval of a pattern rounds to it, and to infinity above all doubles. -/
theorem roundsTo_of_reads {p : Nat} (h : Reads p num den) (hden : 0 < den) :
    RoundsTo (num / den) (min infinity p) := by
  have hlow := (halves_le_iff hden).2 h.low
  rcases Nat.lt_or_ge p infinity with hlt | hge
  · rw [Nat.min_eq_right hlt.le]
    refine .of_halves hlt.le (fun _ => hlow) (fun _ => (le_halves_iff hden).2 h.high) ?_
    rintro (⟨-, hequal⟩ | ⟨-, hequal⟩)
    · exact h.even (.inl (h.low.antisymm ((le_halves_iff hden).1 hequal.ge)))
    · exact h.even (.inr (h.high.antisymm ((halves_le_iff hden).1 hequal.ge)))
  · -- beyond infinity the lower half of the interval is above that of infinity
    rw [Nat.min_eq_left hge, roundsTo_infinity_iff_halves]
    have hpred : patternValue (infinity - 1) ≤ patternValue (p - 1) :=
      patternValue_strictMono.monotone (Nat.sub_le_sub_right hge 1)
    have hself : patternValue infinity ≤ patternValue p := patternValue_strictMono.monotone hge
    linarith

theorem roundsTo_nearest (num : Nat) (hden : 0 < den) :
    RoundsTo (num / den) (nearest num den) := by
  show RoundsTo _ (min infinity (lastPlace num den * 2 ^ 52 + kept num den))
  exact roundsTo_of_reads (reads_kept hden) hden

end Fractions

/-! ### Decimals -/

/-- A decimal is read as the double that it rounds to. -/
theorem roundsTo_ofDecimal (m : Nat) (e : Int) : RoundsTo (m * 10 ^ e) (ofDecimal m e) := by
  unfold ofDecimal
  split
  · next hzero =>
    rw [hzero, roundsTo_zero_iff, Nat.cast_zero, zero_mul]
    positivity
  split
  · next hne hhigh =>
    -- so high a power of ten is too large with any digits but zero
    rw [roundsTo_infinity_iff]
    obtain ⟨k, rfl⟩ := Int.eq_ofNat_of_zero_le (show 0 ≤ e by omega)
    have hpos : (1 : ℚ) ≤ m := by exact_mod_cast Nat.one_le_iff_ne_zero.2 hne
    rw [zpow_natCast]
    calc (2 : ℚ) ^ 1024 - 2 ^ 970 ≤ 2 ^ 1024 := sub_le_self _ (by positivity)
      _ ≤ 2 ^ (3 * k) := pow_le_pow_right₀ one_le_two (by omega)
      _ ≤ 10 ^ k := by exact_mod_cast two_pow_le_ten_pow k
      _ ≤ m * 10 ^ k := le_mul_of_one_le_left (by positivity) hpos
  split
  · next hne hhigh hlow =>
    rw [roundsTo_zero_iff]
    -- and so low a one is too small even with all of these digits
    obtain ⟨k, rfl⟩ := Int.exists_eq_neg_ofNat (show e ≤ 0 by omega)
    have hdigits : (m : ℚ) ≤ 2 ^ (m.log2 + 1) := by exact_mod_cast Nat.lt_log2_self.le
    rw [zpow_neg, zpow_natCast, ← div_eq_mul_inv, div_le_div_iff₀ (by positivity) (by positivity),
      one_mul]
    calc (m : ℚ) * 2 ^ 1075 ≤ 2 ^ (m.log2 + 1) * 2 ^ 1075 :=
          mul_le_mul_of_nonneg_right hdigits (by positivity)
      _ = 2 ^ (m.log2 + 1 + 1075) := (pow_add ..).symm
      _ ≤ 2 ^ (3 * k) := pow_le_pow_right₀ one_le_two (by omega)
      _ ≤ 10 ^ k := by exact_mod_cast two_pow_le_ten_pow k
  cases e with
  | ofNat k =>
    have h := roundsTo_nearest (m * 10 ^ k) Nat.one_pos
    simpa using h
  | negSucc k =>
    have hden : 0 < 10 ^ (k + 1) := by positivity
    have h := roundsTo_nearest m hden
    rw [zpow_negSucc, ← div_eq_mul_inv]
    simpa using h

/-! ### Numerals -/

namespace Numeral

variable {n m : Numeral}

/-- The number that a numeral denotes: what stands before the point, what stands behind it in
units of its last place, and the power of ten. -/
def value (n : Numeral) : ℚ :=
  ((Nat.ofDigitChars 10 n.whole 0 : ℚ) +
    (Nat.ofDigitChars 10 (n.fraction.getD []) 0 : ℚ) / 10 ^ (n.fraction.getD []).length) *
    10 ^ n.exponent.elim 0 Exponent.value

theorem value_eq (n : Numeral) : n.value = n.significand * 10 ^ n.scale := by
  have hdigits : n.significand = 10 ^ (n.fraction.getD []).length * Nat.ofDigitChars 10 n.whole 0 +
      Nat.ofDigitChars 10 (n.fraction.getD []) 0 := by
    rw [significand, Nat.ofDigitChars_append, Nat.ofDigitChars_eq_ofDigitChars_zero]
  have hten : (10 : ℚ) ^ (n.fraction.getD []).length ≠ 0 := by positivity
  rw [value, hdigits, scale, zpow_sub₀ (by norm_num), zpow_natCast, Nat.cast_add, Nat.cast_mul,
    Nat.cast_pow, Nat.cast_ofNat]
  field_simp

theorem roundsTo_pattern (n : Numeral) : RoundsTo n.value n.pattern := by
  rw [value_eq]
  exact roundsTo_ofDecimal n.significand n.scale

theorem pattern_congr (h : n.value = m.value) : n.pattern = m.pattern := by
  have hm := m.roundsTo_pattern
  rw [← h] at hm
  exact n.roundsTo_pattern.unique hm

end Numeral

end FormulaSheet.Number
