/-
The shortest decimal reads back.

* **`Decimal.contains_shortest`** — the shortest decimal of a double lies in its interval;
* **`ofDecimal_of_contains`** — a decimal in the interval of a double reads as that double.

The search ends with a decimal in the interval wherever it stops, for the last grid holds the
double itself.  Of a decimal whose power of ten is so far out that it is not computed, neither the
interval of a finite double nor that of a positive one is ever near enough.
-/
import FormulaSheet.Number.Shortest
import FormulaSheet.Proofs.Number.Nearest

namespace FormulaSheet.Number

open Binary64

variable {p : Nat}

namespace Decimal

theorem stepNum_eq (scale : Int) : stepNum scale = 2 * (10 ^ scale.toNat * 2 ^ 1074) := by
  rw [stepNum, show 1075 = 1074 + 1 from rfl, pow_succ]
  generalize 2 ^ 1074 = unit
  ring

/-- A decimal lies in the interval of a double exactly if its fraction reads as it. -/
theorem contains_iff {x : Decimal} : contains p x = true ↔
    Reads p (x.digits * 10 ^ x.scale.toNat) (10 ^ (-x.scale).toNat) := by
  have hhere : x.digits * stepNum x.scale =
      2 * (x.digits * 10 ^ x.scale.toNat * 2 ^ 1074) := by
    rw [stepNum_eq]
    generalize 2 ^ 1074 = unit
    ring
  unfold contains
  simp only [hhere, stepDen]
  -- the ends count exactly if the pattern is even
  by_cases heven : p % 2 = 0
  · rw [if_pos heven, Bool.and_eq_true, decide_eq_true_eq, decide_eq_true_eq]
    exact ⟨fun h => ⟨h.1, h.2, fun _ => heven⟩, fun h => ⟨h.low, h.high⟩⟩
  · rw [if_neg heven, Bool.and_eq_true, decide_eq_true_eq, decide_eq_true_eq]
    constructor
    · rintro ⟨hlow, hhigh⟩
      exact ⟨Nat.le_of_lt hlow, Nat.le_of_lt hhigh, fun h => by omega⟩
    · intro h
      exact ⟨Nat.lt_of_le_of_ne h.low fun heq => heven (h.even (.inl heq)),
        Nat.lt_of_le_of_ne h.high fun heq => heven (h.even (.inr heq))⟩

theorem contains_of_onGrid? {scale : Int} {x : Decimal} (h : onGrid? p scale = some x) :
    contains p x = true := by
  unfold onGrid? at h
  dsimp only at h
  split at h
  · next hbelow habove =>
    obtain rfl := Option.some.inj h
    split
    · exact hbelow
    · exact habove
  · next hbelow _ =>
    obtain rfl := Option.some.inj h
    exact hbelow
  · next _ habove =>
    obtain rfl := Option.some.inj h
    exact habove
  · cases h

/-- A fraction that is the value of a double lies in its interval. -/
theorem reads_exact {num den : Nat} (hp : 0 < p) (hden : 0 < den)
    (h : num * 2 ^ 1074 = units p * den) : Reads p num den := by
  have hlow : units (p - 1) * den < units p * den :=
    Nat.mul_lt_mul_of_pos_right (units_strictMono (by omega)) hden
  have hhigh : units p * den < units (p + 1) * den :=
    Nat.mul_lt_mul_of_pos_right (units_lt_units_succ p) hden
  refine ⟨?_, ?_, ?_⟩ <;> rw [h] <;> simp only [Nat.add_mul] <;> omega

/-- The last grid holds the double itself. -/
theorem contains_exact (hp : 0 < p) : contains p ⟨units p * 5 ^ 1074, -1074⟩ = true := by
  have hpow : ∀ u k : Nat, u * 5 ^ k * 10 ^ 0 * 2 ^ k = u * 10 ^ k := by
    intro u k
    rw [show (10 : Nat) = 5 * 2 from rfl, mul_pow 5 2 k]
    ring
  exact contains_iff.2 (reads_exact hp (by positivity) (hpow (units p) 1074))

theorem contains_searchFrom (hp : 0 < p) (n : Nat) : contains p (searchFrom p n) = true := by
  induction n with
  | zero => exact contains_exact hp
  | succ n ih =>
    rw [searchFrom]
    cases hgrid : onGrid? p (n - 1073) with
    | some x => exact contains_of_onGrid? hgrid
    | none => exact ih

/-- The shortest decimal of a double lies in its interval. -/
theorem contains_shortest (hp : 0 < p) : contains p (shortest p) = true :=
  contains_searchFrom hp _

theorem digits_pos_of_contains {x : Decimal} (hp : 0 < p) (h : contains p x = true) :
    0 < x.digits := by
  have hlow := (contains_iff.1 h).low
  rcases Nat.eq_zero_or_pos x.digits with hzero | hpos
  · have hunits : 0 < units p := units_strictMono hp
    have hden : 0 < 10 ^ (-x.scale).toNat := by positivity
    rw [hzero, Nat.zero_mul, Nat.zero_mul] at hlow
    have := Nat.mul_pos (Nat.add_pos_right (units (p - 1)) hunits) hden
    omega
  · exact hpos

end Decimal

/-! ### Powers of ten far out -/

theorem two_pow_le_ten_pow (k : Nat) : 2 ^ (3 * k) ≤ 10 ^ k := by
  rw [pow_mul]
  exact Nat.pow_le_pow_left (by omega) k

theorem units_infinity : units infinity = 2 ^ 2098 := by
  have hunits := units_eq (s := 2046) (r := 2 ^ 52) (by omega) (.inr (Nat.le_refl _))
  rw [show infinity = 2046 * 2 ^ 52 + 2 ^ 52 from rfl, hunits, ← pow_add]

/-- A decimal in the interval of a finite double has a power of ten that is computed. -/
theorem scale_le_of_contains {x : Decimal} (hp : 0 < p) (hfinite : p < infinity)
    (h : x.contains p = true) : x.scale ≤ 400 := by
  by_contra hfar
  have hread := Decimal.contains_iff.1 h
  have hdigits := Decimal.digits_pos_of_contains hp h
  have hten : 2 ^ 1203 ≤ x.digits * 10 ^ x.scale.toNat := by
    calc 2 ^ 1203 = 2 ^ (3 * 401) := rfl
      _ ≤ 10 ^ 401 := two_pow_le_ten_pow 401
      _ ≤ 10 ^ x.scale.toNat := Nat.pow_le_pow_right (by omega) (by omega)
      _ ≤ x.digits * 10 ^ x.scale.toNat := Nat.le_mul_of_pos_left _ hdigits
  -- both neighbours are at most `infinity`, so such a decimal lies above the interval
  have hself : units p ≤ units infinity := units_strictMono.monotone (Nat.le_of_lt hfinite)
  have hnext : units (p + 1) ≤ units infinity := units_strictMono.monotone hfinite
  generalize htop : units infinity = top at hself hnext
  have hhigh : 2 ^ 1203 * 2 ^ 1074 ≤ top := by
    refine Nat.le_of_mul_le_mul_left (c := 2) ?_ (by omega)
    calc 2 * (2 ^ 1203 * 2 ^ 1074) ≤ 2 * (x.digits * 10 ^ x.scale.toNat * 2 ^ 1074) :=
          Nat.mul_le_mul_left 2 (Nat.mul_le_mul_right _ hten)
      _ ≤ (units p + units (p + 1)) * 10 ^ (-x.scale).toNat := hread.high
      _ = units p + units (p + 1) := by
          rw [show (-x.scale).toNat = 0 by omega, pow_zero, mul_one]
      _ ≤ 2 * top := by omega
  rw [← pow_add, ← htop, units_infinity] at hhigh
  exact absurd hhigh (Nat.not_le.2 (Nat.pow_lt_pow_right (by omega) (by omega)))

/-- A decimal in the interval of a positive double has a power of ten that is computed. -/
theorem le_scale_of_contains {x : Decimal} (hp : 0 < p) (h : x.contains p = true) :
    0 ≤ x.scale + x.digits.log2 + 400 := by
  by_contra hfar
  have hread := Decimal.contains_iff.1 h
  -- the interval starts half a unit above zero at least, and such a decimal lies below that
  have hunit : 1 ≤ units (p - 1) + units p := Nat.add_pos_right _ (units_strictMono hp)
  have hlow : 10 ^ (-x.scale).toNat ≤ 2 * (x.digits * 2 ^ 1074) := by
    calc 10 ^ (-x.scale).toNat ≤ (units (p - 1) + units p) * 10 ^ (-x.scale).toNat :=
          Nat.le_mul_of_pos_left _ hunit
      _ ≤ 2 * (x.digits * 10 ^ x.scale.toNat * 2 ^ 1074) := hread.low
      _ = 2 * (x.digits * 2 ^ 1074) := by
          rw [show x.scale.toNat = 0 by omega, pow_zero, mul_one]
  have hhigh : 2 * (x.digits * 2 ^ 1074) < 2 ^ (x.digits.log2 + 1 + 1075) := by
    calc 2 * (x.digits * 2 ^ 1074) < 2 * (2 ^ (x.digits.log2 + 1) * 2 ^ 1074) :=
          Nat.mul_lt_mul_of_pos_left
            (Nat.mul_lt_mul_of_pos_right Nat.lt_log2_self (by positivity)) (by omega)
      _ = 2 ^ (x.digits.log2 + 1 + 1075) := by
          rw [← pow_add, ← pow_succ']
  have hten : 2 ^ (x.digits.log2 + 1 + 1075) ≤ 10 ^ (-x.scale).toNat :=
    calc 2 ^ (x.digits.log2 + 1 + 1075) ≤ 2 ^ (3 * (-x.scale).toNat) :=
          Nat.pow_le_pow_right (by omega) (by omega)
      _ ≤ 10 ^ (-x.scale).toNat := two_pow_le_ten_pow _
  omega

/-- A decimal in the interval of a double reads as that double. -/
theorem ofDecimal_of_contains {x : Decimal} (hp : 0 < p) (hfinite : p < infinity)
    (h : x.contains p = true) : ofDecimal x.digits x.scale = p := by
  have hhigh := scale_le_of_contains hp hfinite h
  have hlow := le_scale_of_contains hp h
  have hdigits := Decimal.digits_pos_of_contains hp h
  have hread := Decimal.contains_iff.1 h
  obtain ⟨digits, scale⟩ := x
  dsimp only at *
  -- none of the cases that are decided without the power of ten applies
  unfold ofDecimal
  rw [if_neg (by omega), if_neg (by omega), if_neg (by omega)]
  cases scale with
  | ofNat k =>
    refine nearest_eq ?_ Nat.one_pos hfinite
    simpa using hread
  | negSucc k =>
    refine nearest_eq ?_ (by positivity) hfinite
    simpa using hread

end FormulaSheet.Number
