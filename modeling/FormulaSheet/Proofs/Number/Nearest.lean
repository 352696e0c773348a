/-
The nearest double.

The fractions that read as a double form an interval around it, which ends halfway to its two
neighbours; the ends belong to it if its pattern is even.  `Reads` says that a fraction lies there.

* **`units_eq`** — the value of a pattern, from its last place and what stands before it;
* **`units_strictMono`** — a greater pattern has a greater value;
* **`Reads.unique`** — a fraction lies in one interval at most;
* **`nearest_eq`** — the pattern nearest to a fraction is the one in whose interval it lies.

Rounding to the last place that is kept lands in the interval of the result: half a unit of that
place is half the way to a neighbour, and where the neighbour below is nearer, at a power of two,
the fraction lies above.
-/
import FormulaSheet.Number.Binary64
import Mathlib.Algebra.Order.Ring.Nat
import Mathlib.Order.Monotone.Basic
import Mathlib.Tactic.Linarith
import Mathlib.Tactic.Ring

namespace FormulaSheet.Number.Binary64

/-! ### The value of a pattern -/

/-- The value of a pattern with `s` places that are not kept, above which stands `r`. -/
theorem units_eq {s r : Nat} (hr : r ≤ 2 ^ 53) (hs : s = 0 ∨ 2 ^ 52 ≤ r) :
    units (s * 2 ^ 52 + r) = r * 2 ^ s := by
  rcases Nat.lt_or_ge r (2 ^ 52) with hlow | hhigh
  · -- a subnormal pattern
    obtain rfl : s = 0 := by omega
    have hshift : (0 * 2 ^ 52 + r) / 2 ^ 52 - 1 = 0 := by omega
    rw [units, hshift]
    simp
  · rcases Nat.lt_or_ge r (2 ^ 53) with hlt | hge
    · have hshift : (s * 2 ^ 52 + r) / 2 ^ 52 - 1 = s := by omega
      rw [units, hshift, Nat.add_sub_cancel_left]
    · -- one more place is not kept
      obtain rfl : r = 2 ^ 53 := by omega
      have hshift : (s * 2 ^ 52 + 2 ^ 53) / 2 ^ 52 - 1 = s + 1 := by omega
      have hrest : s * 2 ^ 52 + 2 ^ 53 - (s + 1) * 2 ^ 52 = 2 ^ 52 := by omega
      rw [units, hshift, hrest]
      ring

theorem exists_places (p : Nat) :
    ∃ s r, p = s * 2 ^ 52 + r ∧ r < 2 ^ 53 ∧ (s = 0 ∨ 2 ^ 52 ≤ r) := by
  refine ⟨p / 2 ^ 52 - 1, p - (p / 2 ^ 52 - 1) * 2 ^ 52, ?_, ?_, ?_⟩ <;> omega

theorem units_lt_units_succ (p : Nat) : units p < units (p + 1) := by
  obtain ⟨s, r, rfl, hr, hs⟩ := exists_places p
  rw [Nat.add_assoc, units_eq (by omega) hs, units_eq (by omega) (by omega)]
  exact Nat.mul_lt_mul_of_pos_right (Nat.lt_succ_self r) (by positivity)

theorem units_strictMono : StrictMono units :=
  strictMono_nat_of_lt_succ units_lt_units_succ

/-! ### The interval of a pattern -/

/-- The fraction `num / den` lies among the reals that read as the pattern. -/
structure Reads (p num den : Nat) : Prop where
  low : (units (p - 1) + units p) * den ≤ 2 * (num * 2 ^ 1074)
  high : 2 * (num * 2 ^ 1074) ≤ (units p + units (p + 1)) * den
  even : (units (p - 1) + units p) * den = 2 * (num * 2 ^ 1074) ∨
    2 * (num * 2 ^ 1074) = (units p + units (p + 1)) * den → p % 2 = 0

theorem Reads.not_lt {p p' num den : Nat} (h : Reads p num den) (h' : Reads p' num den)
    (hden : 0 < den) : ¬ p < p' := by
  intro hlt
  have hpred : units p ≤ units (p' - 1) := units_strictMono.monotone (by omega)
  have hself : units (p + 1) ≤ units p' := units_strictMono.monotone hlt
  have hends : (units p + units (p + 1)) * den ≤ (units (p' - 1) + units p') * den :=
    Nat.mul_le_mul_right den (by omega)
  -- the two intervals touch at most, and then at an end of neighbours, one of them odd
  have hlow := h'.low
  have hhigh := h.high
  have heven := h.even (.inr (by omega))
  have heven' := h'.even (.inl (by omega))
  have htouch : (units p + units (p + 1)) = (units (p' - 1) + units p') :=
    Nat.eq_of_mul_eq_mul_right hden (by omega)
  have hnext : p' = p + 1 := units_strictMono.injective (by omega)
  omega

/-- A fraction lies in the interval of one pattern at most. -/
theorem Reads.unique {p p' num den : Nat} (h : Reads p num den) (h' : Reads p' num den)
    (hden : 0 < den) : p = p' :=
  Nat.le_antisymm (Nat.not_lt.1 (h'.not_lt h hden)) (Nat.not_lt.1 (h.not_lt h' hden))

/-! ### Rounding -/

/-- The nearest whole number is at most half a unit away, and even if it is half a unit. -/
theorem roundHalfEven_spec (num : Nat) {den : Nat} (hden : 0 < den) :
    2 * (roundHalfEven num den * den) ≤ 2 * num + den ∧
      2 * num ≤ 2 * (roundHalfEven num den * den) + den ∧
      (2 * (roundHalfEven num den * den) = 2 * num + den ∨
        2 * num = 2 * (roundHalfEven num den * den) + den → roundHalfEven num den % 2 = 0) := by
  have hsplit := Nat.div_add_mod' num den
  have hmod := Nat.mod_lt num hden
  have hnext : (num / den + 1) * den = num / den * den + den := Nat.succ_mul ..
  unfold roundHalfEven
  simp only [Bool.or_eq_true, Bool.and_eq_true, decide_eq_true_eq, beq_iff_eq]
  split
  · omega
  · next hup =>
    rw [hnext]
    omega

theorem roundHalfEven_le (num den : Nat) :
    num / den ≤ roundHalfEven num den ∧ roundHalfEven num den ≤ num / den + 1 := by
  unfold roundHalfEven
  dsimp only
  split <;> omega

/-- The value above a pattern is a unit of its last place away, or more. -/
theorem le_units_succ {s r : Nat} (hr : r ≤ 2 ^ 53) (hs : s = 0 ∨ 2 ^ 52 ≤ r) :
    (r + 1) * 2 ^ s ≤ units (s * 2 ^ 52 + r + 1) := by
  rcases Nat.lt_or_ge r (2 ^ 53) with hlt | hge
  · rw [Nat.add_assoc, units_eq (by omega) (by omega)]
  · obtain rfl : r = 2 ^ 53 := by omega
    have hplaces : s * 2 ^ 52 + 2 ^ 53 + 1 = (s + 1) * 2 ^ 52 + (2 ^ 52 + 1) := by omega
    rw [hplaces, units_eq (by omega) (by omega)]
    calc (2 ^ 53 + 1) * 2 ^ s ≤ (2 ^ 53 + 2) * 2 ^ s := Nat.mul_le_mul_right _ (by omega)
      _ = (2 ^ 52 + 1) * 2 ^ (s + 1) := by ring

/-- The value below a pattern is a unit of its last place away, unless the pattern is a power of
two. -/
theorem units_pred {s r : Nat} (hr : r ≤ 2 ^ 53) (hpos : 0 < r) (hs : s = 0 ∨ 2 ^ 52 < r) :
    units (s * 2 ^ 52 + r - 1) = (r - 1) * 2 ^ s := by
  have hpred : s * 2 ^ 52 + r - 1 = s * 2 ^ 52 + (r - 1) := by omega
  rw [hpred, units_eq (by omega) (by omega)]

/-- The place of the last bit that is kept of a fraction. -/
def lastPlace (num den : Nat) : Nat := (num * 2 ^ 1074 / den).log2 - 52

/-- What is kept of a fraction, in units of its last place. -/
def kept (num den : Nat) : Nat :=
  roundHalfEven (num * 2 ^ 1074) (den * 2 ^ lastPlace num den)

/-- What is kept has 53 bits, fewer only if nothing is lost, and the fraction is not below the power
of two that it rounds to. -/
theorem kept_bounds (num : Nat) {den : Nat} (hden : 0 < den) :
    kept num den ≤ 2 ^ 53 ∧ (lastPlace num den = 0 ∨ 2 ^ 52 ≤ kept num den ∧
      2 ^ 52 * (den * 2 ^ lastPlace num den) ≤ num * 2 ^ 1074) := by
  obtain ⟨hlow, hhigh⟩ := roundHalfEven_le (num * 2 ^ 1074) (den * 2 ^ lastPlace num den)
  -- the last place is 52 places below the first one of the quotient
  rw [← Nat.div_div_eq_div_mul] at hlow hhigh
  have hquot : num * 2 ^ 1074 / den < 2 ^ (lastPlace num den + 53) := by
    refine Nat.lt_of_lt_of_le Nat.lt_log2_self ?_
    exact Nat.pow_le_pow_right (by omega) (by unfold lastPlace; omega)
  have hlt : num * 2 ^ 1074 / den / 2 ^ lastPlace num den < 2 ^ 53 := by
    rw [Nat.div_lt_iff_lt_mul (by positivity), ← pow_add, Nat.add_comm]
    exact hquot
  refine ⟨by unfold kept; omega, ?_⟩
  rcases Nat.eq_zero_or_pos (lastPlace num den) with hzero | hpos
  · exact .inl hzero
  · -- places are lost, so the quotient has all 53 of them
    have hne : num * 2 ^ 1074 / den ≠ 0 := by
      intro hzero
      rw [lastPlace, hzero] at hpos
      simp at hpos
    have hge : 2 ^ 52 * 2 ^ lastPlace num den ≤ num * 2 ^ 1074 / den := by
      rw [← pow_add, show 52 + lastPlace num den = (num * 2 ^ 1074 / den).log2 by
        unfold lastPlace at hpos ⊢; omega]
      exact Nat.log2_self_le hne
    have hfits : 2 ^ 52 ≤ num * 2 ^ 1074 / den / 2 ^ lastPlace num den :=
      (Nat.le_div_iff_mul_le (by positivity)).2 hge
    refine .inr ⟨by unfold kept; omega, ?_⟩
    rwa [Nat.le_div_iff_mul_le hden, mul_assoc, mul_comm (2 ^ lastPlace num den)] at hge

/-- The pattern below is a unit of the last place away, but nearer below a power of two, and zero
has none below. -/
theorem units_pred_cases {s r den : Nat} (hr : r ≤ 2 ^ 53) (hs : s = 0 ∨ 2 ^ 52 ≤ r)
    (hden : 0 < den) :
    units (s * 2 ^ 52 + r - 1) * den + den * 2 ^ s = r * (den * 2 ^ s) ∨
      (s ≠ 0 ∧ r = 2 ^ 52) ∧ units (s * 2 ^ 52 + r - 1) * den < r * (den * 2 ^ s) ∨
      (s = 0 ∧ r = 0) ∧ units (s * 2 ^ 52 + r - 1) * den = 0 := by
  rcases Nat.eq_zero_or_pos r with rfl | hpos
  · obtain rfl : s = 0 := by omega
    exact .inr (.inr ⟨⟨rfl, rfl⟩, Nat.zero_mul den⟩)
  · by_cases htwo : s = 0 ∨ 2 ^ 52 < r
    · refine .inl ?_
      rw [units_pred hr hpos htwo]
      calc (r - 1) * 2 ^ s * den + den * 2 ^ s = (r - 1 + 1) * (den * 2 ^ s) := by ring
        _ = r * (den * 2 ^ s) := by rw [Nat.sub_add_cancel hpos]
    · refine .inr (.inl ⟨by omega, ?_⟩)
      calc units (s * 2 ^ 52 + r - 1) * den < units (s * 2 ^ 52 + r) * den :=
            Nat.mul_lt_mul_of_pos_right (units_strictMono (by omega)) hden
        _ = r * (den * 2 ^ s) := by
            rw [units_eq hr hs]
            ring

/-- A fraction lies in the interval of what it is rounded to. -/
theorem reads_kept {num den : Nat} (hden : 0 < den) :
    Reads (lastPlace num den * 2 ^ 52 + kept num den) num den := by
  have hunit : 0 < den * 2 ^ lastPlace num den := by positivity
  obtain ⟨hdown, hup, htie⟩ := roundHalfEven_spec (num * 2 ^ 1074) hunit
  obtain ⟨hle, hplace⟩ := kept_bounds num hden
  rw [← kept] at hdown hup htie
  generalize lastPlace num den = s at *
  generalize kept num den = r at *
  generalize hn : num * 2 ^ 1074 = n at *
  have hs : s = 0 ∨ 2 ^ 52 ≤ r := by omega
  -- everything is measured in units of the last place, `den * 2 ^ s`
  have hself : units (s * 2 ^ 52 + r) * den = r * (den * 2 ^ s) := by
    rw [units_eq hle hs]
    ring
  have habove : (r + 1) * (den * 2 ^ s) ≤ units (s * 2 ^ 52 + r + 1) * den := by
    calc (r + 1) * (den * 2 ^ s) = (r + 1) * 2 ^ s * den := by ring
      _ ≤ _ := Nat.mul_le_mul_right den (le_units_succ hle hs)
  have hsucc : (r + 1) * (den * 2 ^ s) = r * (den * 2 ^ s) + den * 2 ^ s := Nat.succ_mul ..
  have hbelow := units_pred_cases hle hs hden
  -- a power of two is not rounded up to, so the nearer neighbour does no harm
  have htwo : s ≠ 0 ∧ r = 2 ^ 52 → r * (den * 2 ^ s) ≤ n := by
    rintro ⟨hne, rfl⟩
    exact (hplace.resolve_left hne).2
  have hzero : r = 0 → r * (den * 2 ^ s) = 0 := by
    rintro rfl
    exact Nat.zero_mul _
  refine ⟨?_, ?_, ?_⟩ <;> simp only [Nat.add_mul, hself, hn]
  · omega
  · omega
  · -- an end is touched only by a tie, which goes to the even neighbour
    intro htouch
    have hr : r % 2 = 0 := by
      rcases hbelow with hbelow | hbelow | hbelow
      · exact htie (by omega)
      · exact htie (by omega)
      · omega
    omega

/-- The pattern nearest to a fraction is the one in whose interval it lies. -/
theorem nearest_eq {p num den : Nat} (h : Reads p num den) (hden : 0 < den) (hp : p < infinity) :
    nearest num den = p := by
  show min infinity (lastPlace num den * 2 ^ 52 + kept num den) = p
  rw [(reads_kept hden).unique h hden]
  exact Nat.min_eq_right (Nat.le_of_lt hp)

end FormulaSheet.Number.Binary64
