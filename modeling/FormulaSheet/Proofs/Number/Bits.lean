/-
Doubles and their patterns.

A double is its sign bit and its pattern, as long as the pattern is none of those beyond
`infinity`, which all stand for the same double that is no number.  So a finite double can be taken
apart and put together again, in either order.

* **`isFinite_iff`** — a double is finite exactly if its pattern is below `infinity`;
* **`ofMagnitude_magnitude`** — a finite double is the one with its sign and pattern;
* **`magnitude_ofMagnitude`**, **`isNegative_ofMagnitude`** — sign and pattern of a finite double
  made from them;
* **`beq_self_of_isFinite`**, **`beq_of_magnitude_eq_zero`**, **`eq_or_magnitude_eq_zero_of_beq`** —
  equality of doubles, where `-0` and `0` are equal and nothing else that differs is;
* **`abs_eq_ofMagnitude`**, **`lt_zero_iff`** — the absolute value of a finite double, and the
  doubles that are below zero.
-/
import FormulaSheet.Number.Binary64
import Mathlib

namespace FormulaSheet.Number

open Float.Model Float.Model.UnpackedFloat

/-! ### The three fields of a word -/

section Fields

variable (b : BitVec Format.binary64.numBits)

theorem toNat_unpackExponent : (unpackExponent b).toNat = b.toNat / 2 ^ 52 % 2 ^ 11 := by
  simp [unpackExponent, Nat.shiftRight_eq_div_pow]

theorem toNat_unpackMantissa : (unpackMantissa b).toNat = b.toNat % 2 ^ 52 := by
  simp [unpackMantissa]

theorem toNat_unpackSign : (unpackSign b).toNat = b.toNat / 2 ^ 63 := by
  have hlt : b.toNat < 2 ^ 64 := b.isLt
  have hfield : (unpackSign b).toNat = b.toNat / 2 ^ 63 % 2 := by
    simp [unpackSign, Nat.shiftRight_eq_div_pow]
  omega

theorem ofBitVec_unpackSign :
    Sign.ofBitVec (unpackSign b) = if 2 ^ 63 ≤ b.toNat then .negative else .positive := by
  have hlt : b.toNat < 2 ^ 64 := b.isLt
  have hsign : unpackSign b = 0#1 ↔ ¬ 2 ^ 63 ≤ b.toNat := by
    rw [← BitVec.toNat_inj, toNat_unpackSign, BitVec.toNat_zero]
    omega
  simp only [Sign.ofBitVec, hsign, ite_not]

/-- A word is made of its fields. -/
theorem packComponents_unpack :
    packComponents .binary64 (.ofBitVec (unpackSign b)) (unpackExponent b) (unpackMantissa b) =
      b := by
  have hsign : ∀ s : BitVec 1, (Sign.ofBitVec s).toBitVec = s := by decide
  simp only [packComponents, hsign, unpackSign, unpackExponent, unpackMantissa, BitVec.extractLsb]
  ext i hi
  grind

theorem unpackExponent_eq_neg_one_iff :
    unpackExponent b = -1#_ ↔ Binary64.infinity ≤ b.toNat % 2 ^ 63 := by
  have hones : (-1#11 : BitVec 11).toNat = 2047 := by decide
  rw [← BitVec.toNat_inj, toNat_unpackExponent, hones, Binary64.infinity]
  omega

/-- A normal significand is its mantissa after the bit that is not written. -/
theorem toNat_significand :
    (1#1 ++ unpackMantissa b).toNat = 2 ^ 52 + (unpackMantissa b).toNat := by
  have hlt : (unpackMantissa b).toNat < 2 ^ 52 := (unpackMantissa b).isLt
  rw [BitVec.toNat_append, ← Nat.shiftLeft_add_eq_or_of_lt hlt]
  simp [Nat.shiftLeft_eq]

theorem log2_significand : (1#1 ++ unpackMantissa b).toNat.log2 + 1 = 53 := by
  have hlt : (unpackMantissa b).toNat < 2 ^ 52 := (unpackMantissa b).isLt
  have hnat := toNat_significand b
  -- the leading one puts it between two powers of two
  have hlow := (Nat.le_log2 (n := (1#1 ++ unpackMantissa b).toNat) (by omega)).2
    (by omega : 2 ^ 52 ≤ _)
  have hhigh := (Nat.log2_lt (n := (1#1 ++ unpackMantissa b).toNat) (by omega)).2
    (by omega : _ < 2 ^ 53)
  omega

/-- A word with fields that are no infinity is packed again as it was. -/
theorem pack_unpack (h : b.toNat % 2 ^ 63 < Binary64.infinity) :
    UnpackedFloat.pack .binary64 (UnpackedFloat.unpack .binary64 b) = b := by
  have hexponent : unpackExponent b ≠ -1#_ := by
    rw [ne_eq, unpackExponent_eq_neg_one_iff]
    omega
  have hbias : (Format.binary64.exponentBias : Int) = 1023 := rfl
  have hbits : Format.binary64.mantissaBits = 53 := rfl
  have hlt : (unpackMantissa b).toNat < 2 ^ 52 := (unpackMantissa b).isLt
  have hfields := packComponents_unpack b
  unfold UnpackedFloat.unpack
  simp only [hexponent, if_false]
  split
  · next hzero =>
    split
    · next hmantissa =>
      -- a zero
      rw [UnpackedFloat.pack, packedZero]
      rw [hzero, hmantissa] at hfields
      exact hfields
    · next hmantissa =>
      -- a subnormal mantissa has at most 52 bits
      have hpos : (unpackMantissa b).toNat ≠ 0 := fun hzero =>
        hmantissa (BitVec.eq_of_toNat_eq (by simpa using hzero))
      have hlog : ¬ (unpackMantissa b).toNat.log2 + 1 = 53 := by
        have := (Nat.log2_lt hpos).2 hlt
        omega
      rw [hzero] at hfields ⊢
      simp only [UnpackedFloat.pack, hbias, hbits, hlog, if_false]
      rw [if_neg (by decide), BitVec.ofNat_toNat, BitVec.setWidth_eq]
      exact hfields
  · next hnormal =>
    -- a normal double, whose significand has 53 bits
    have hfits : ¬ 2 ^ 11 ≤ (unpackExponent b).toNat + 1 := by
      rw [toNat_unpackExponent]
      rw [ne_eq, unpackExponent_eq_neg_one_iff] at hexponent
      rw [Binary64.infinity] at hexponent
      omega
    have hback : BitVec.ofNat 52 (1#1 ++ unpackMantissa b).toNat = unpackMantissa b := by
      refine BitVec.eq_of_toNat_eq ?_
      rw [BitVec.toNat_ofNat, toNat_significand]
      omega
    have hexp : (((unpackExponent b).toNat : Int) - (1023 + 52) + 1023 + 52).toNat =
        (unpackExponent b).toNat := by omega
    simp only [UnpackedFloat.pack, hbias, hbits, log2_significand b, if_true]
    rw [show ((Format.binary64.mantissaBitsWithoutImplicit : Nat) : Int) = 52 from rfl, hexp,
      if_neg hfits, hback, BitVec.ofNat_toNat, BitVec.setWidth_eq]
    exact hfields

end Fields

/-! ### Words and their sign -/

/-- What is unpacked and is no zero has the sign of its word. -/
theorem sign_of_unpack {b : BitVec Format.binary64.numBits} {sign : Sign} {m : Nat} {e : Int}
    {hm : 0 < m} (h : UnpackedFloat.unpack .binary64 b = .finite sign m e hm) :
    sign = Sign.ofBitVec (unpackSign b) := by
  unfold UnpackedFloat.unpack at h
  dsimp only at h
  split at h
  · split at h <;> cases h
  · split at h
    · split at h <;> cases h
      rfl
    · cases h
      rfl

/-- A word without its sign bit is unpacked without its sign. -/
theorem unpack_eq_abs {b b' : BitVec Format.binary64.numBits} (h : b'.toNat = b.toNat % 2 ^ 63) :
    UnpackedFloat.unpack .binary64 b' = (UnpackedFloat.unpack .binary64 b).abs := by
  -- exponent and mantissa are read from the bits below the sign
  have hexponent : unpackExponent b' = unpackExponent b := by
    refine BitVec.eq_of_toNat_eq ?_
    rw [toNat_unpackExponent, toNat_unpackExponent]
    omega
  have hmantissa : unpackMantissa b' = unpackMantissa b := by
    refine BitVec.eq_of_toNat_eq ?_
    rw [toNat_unpackMantissa, toNat_unpackMantissa]
    omega
  have hsign : Sign.ofBitVec (unpackSign b') = .positive := by
    rw [ofBitVec_unpackSign, if_neg]
    omega
  unfold UnpackedFloat.unpack
  simp only [hexponent, hmantissa, hsign]
  split
  · split <;> rfl
  · split
    · split <;> rfl
    · rfl

/-! ### Signs and patterns -/

section Patterns

variable {x : Float} {negative : Bool} {pattern : Nat}

theorem isFinite_unpack (b : BitVec Format.binary64.numBits) :
    (UnpackedFloat.unpack .binary64 b).isFinite = true ↔
      b.toNat % 2 ^ 63 < Binary64.infinity := by
  rw [← Nat.not_le, ← unpackExponent_eq_neg_one_iff, UnpackedFloat.unpack]
  by_cases hexponent : unpackExponent b = -1#_
  · simp only [hexponent, if_true]
    split <;> simp [UnpackedFloat.isFinite]
  · simp only [hexponent, if_false]
    split
    · split <;> simp [UnpackedFloat.isFinite]
    · simp [UnpackedFloat.isFinite]

/-- A double is finite exactly if its pattern is below `infinity`. -/
theorem isFinite_iff : x.isFinite = true ↔ magnitude x < Binary64.infinity :=
  isFinite_unpack x.toBits.toBitVec

theorem toNat_toBits (x : Float) :
    x.toBits.toNat = magnitude x + if isNegative x then 2 ^ 63 else 0 := by
  have hlt := x.toBits.toNat_lt
  simp only [magnitude, isNegative, decide_eq_true_eq]
  split <;> omega

theorem toBits_ofBits {word : UInt64} (h : word.toNat % 2 ^ 63 < Binary64.infinity) :
    (Float.ofBits word).toBits = word := by
  show UInt64.ofBitVec
    (UnpackedFloat.pack .binary64 (UnpackedFloat.unpack .binary64 word.toBitVec)) = word
  rw [pack_unpack word.toBitVec h]

theorem toBits_injective {y : Float} (h : x.toBits = y.toBits) : x = y := by
  obtain ⟨⟨word, hword⟩⟩ := x
  obtain ⟨⟨word', hword'⟩⟩ := y
  obtain rfl : word = word' := h
  rfl

theorem toNat_toBits_ofMagnitude (h : pattern < Binary64.infinity) :
    (ofMagnitude negative pattern).toBits.toNat = pattern + if negative then 2 ^ 63 else 0 := by
  have hlt : (pattern + if negative then 2 ^ 63 else 0) < 2 ^ 64 := by
    rw [Binary64.infinity] at h
    split <;> omega
  have hword : (UInt64.ofNat (pattern + if negative then 2 ^ 63 else 0)).toNat =
      pattern + if negative then 2 ^ 63 else 0 := UInt64.toNat_ofNat_of_lt' hlt
  rw [ofMagnitude, toBits_ofBits, hword]
  rw [hword]
  rw [Binary64.infinity] at h ⊢
  split <;> omega

/-- A finite double is the one with its sign and pattern. -/
theorem ofMagnitude_magnitude (h : x.isFinite = true) :
    ofMagnitude (isNegative x) (magnitude x) = x := by
  refine toBits_injective (UInt64.toNat_inj.1 ?_)
  rw [toNat_toBits_ofMagnitude (isFinite_iff.1 h), ← toNat_toBits]

theorem magnitude_ofMagnitude (h : pattern < Binary64.infinity) :
    magnitude (ofMagnitude negative pattern) = pattern := by
  rw [magnitude, toNat_toBits_ofMagnitude h]
  rw [Binary64.infinity] at h
  split <;> omega

theorem isNegative_ofMagnitude (h : pattern < Binary64.infinity) :
    isNegative (ofMagnitude negative pattern) = negative := by
  rw [isNegative, toNat_toBits_ofMagnitude h]
  rw [Binary64.infinity] at h
  cases negative with
  | false =>
    simp
    omega
  | true => simp

theorem isFinite_ofMagnitude (h : pattern < Binary64.infinity) :
    (ofMagnitude negative pattern).isFinite = true := by
  rw [isFinite_iff, magnitude_ofMagnitude h]
  exact h

/-! ### Equality -/

theorem compare_self {u : UnpackedFloat} (h : u.isFinite = true) : u.compare u = some .eq := by
  match u, h with
  | .zero _, _ => rfl
  | .finite .positive m e _, _ => simp [UnpackedFloat.compare]
  | .finite .negative m e _, _ => simp [UnpackedFloat.compare]

theorem beq_self_of_isFinite (h : x.isFinite = true) : (x == x) = true := by
  show (UnpackedFloat.compare x.toModel.unpack x.toModel.unpack == some .eq) = true
  rw [compare_self h]
  rfl

theorem unpack_of_magnitude_eq_zero (h : magnitude x = 0) :
    ∃ sign, x.toModel.unpack = .zero sign := by
  have hzero : x.toBits.toBitVec.toNat % 2 ^ 63 = 0 := h
  have hexponent : @unpackExponent .binary64 x.toBits.toBitVec = 0#_ := by
    refine BitVec.eq_of_toNat_eq ?_
    rw [toNat_unpackExponent, BitVec.toNat_zero]
    omega
  have hmantissa : @unpackMantissa .binary64 x.toBits.toBitVec = 0#_ := by
    refine BitVec.eq_of_toNat_eq ?_
    rw [toNat_unpackMantissa, BitVec.toNat_zero]
    omega
  refine ⟨.ofBitVec (@unpackSign .binary64 x.toBits.toBitVec), ?_⟩
  show UnpackedFloat.unpack .binary64 x.toBits.toBitVec = _
  rw [UnpackedFloat.unpack]
  simp [hexponent, hmantissa]

/-- Both zeros are equal. -/
theorem beq_of_magnitude_eq_zero {y : Float} (hx : magnitude x = 0) (hy : magnitude y = 0) :
    (x == y) = true := by
  obtain ⟨sx, hsx⟩ := unpack_of_magnitude_eq_zero hx
  obtain ⟨sy, hsy⟩ := unpack_of_magnitude_eq_zero hy
  show (UnpackedFloat.compare x.toModel.unpack y.toModel.unpack == some .eq) = true
  rw [hsx, hsy]
  rfl

theorem eq_or_zero_of_compare {u v : UnpackedFloat} (hu : u.isFinite = true)
    (h : u.compare v = some .eq) : u = v ∨ ∃ s t, u = .zero s ∧ v = .zero t := by
  -- of finite doubles only these compare as equal: the others differ in kind or in sign
  match u, v with
  | .zero s, .zero t => exact .inr ⟨s, t, rfl, rfl⟩
  | .finite .positive m e _, .finite .positive m' e' _ =>
    have h : (compare e e').then (compare m m') = .eq := Option.some.inj h
    rw [Ordering.then_eq_eq, Std.compare_eq_iff_eq, Std.compare_eq_iff_eq] at h
    obtain ⟨rfl, rfl⟩ := h
    exact .inl rfl
  | .finite .negative m e _, .finite .negative m' e' _ =>
    have h : ((compare e e').then (compare m m')).swap = .eq := Option.some.inj h
    rw [Ordering.swap_eq_eq, Ordering.then_eq_eq, Std.compare_eq_iff_eq, Std.compare_eq_iff_eq] at h
    obtain ⟨rfl, rfl⟩ := h
    exact .inl rfl

theorem eq_of_unpack_eq {y : Float} (hx : x.isFinite = true) (hy : y.isFinite = true)
    (h : x.toModel.unpack = y.toModel.unpack) : x = y := by
  have hword : x.toBits.toBitVec = y.toBits.toBitVec := by
    calc x.toBits.toBitVec
        = UnpackedFloat.pack .binary64 x.toModel.unpack :=
          (pack_unpack x.toBits.toBitVec (isFinite_iff.1 hx)).symm
      _ = UnpackedFloat.pack .binary64 y.toModel.unpack := by rw [h]
      _ = y.toBits.toBitVec := pack_unpack y.toBits.toBitVec (isFinite_iff.1 hy)
  exact toBits_injective (UInt64.toBitVec_inj.1 hword)

theorem magnitude_eq_zero_of_unpack {sign : UnpackedFloat.Sign} (hx : x.isFinite = true)
    (h : x.toModel.unpack = .zero sign) : magnitude x = 0 := by
  have hword : UnpackedFloat.packedZero .binary64 sign = x.toBits.toBitVec := by
    rw [← pack_unpack x.toBits.toBitVec (isFinite_iff.1 hx)]
    exact (congrArg (UnpackedFloat.pack .binary64) h).symm
  show x.toBits.toBitVec.toNat % 2 ^ 63 = 0
  rw [← hword]
  cases sign <;> decide

/-- Finite doubles that are equal are the same double, or are both zeros. -/
theorem eq_or_magnitude_eq_zero_of_beq {y : Float} (hx : x.isFinite = true)
    (hy : y.isFinite = true) (h : (x == y) = true) :
    x = y ∨ magnitude x = 0 ∧ magnitude y = 0 := by
  have hcompare : UnpackedFloat.compare x.toModel.unpack y.toModel.unpack = some .eq :=
    eq_of_beq h
  rcases eq_or_zero_of_compare hx hcompare with heq | ⟨s, t, hs, ht⟩
  · exact .inl (eq_of_unpack_eq hx hy heq)
  · exact .inr ⟨magnitude_eq_zero_of_unpack hx hs, magnitude_eq_zero_of_unpack hy ht⟩

/-- A double of either sign and pattern `0` is one of the two zeros. -/
theorem magnitude_eq_zero_iff (h : x.isFinite = true) : magnitude x = 0 ↔ x = 0 ∨ x = -0 := by
  have hpositive : (0 : Float) = ofMagnitude false 0 := by decide +kernel
  have hnegative : (-0 : Float) = ofMagnitude true 0 := by decide +kernel
  constructor
  · intro hzero
    have hback := ofMagnitude_magnitude h
    rw [hzero] at hback
    cases hsign : isNegative x with
    | false => exact .inl (by rw [hpositive, ← hback, hsign])
    | true => exact .inr (by rw [hnegative, ← hback, hsign])
  · rintro (rfl | rfl) <;> decide

/-- Finite doubles are equal exactly if they are the same double, or both are zeros. -/
theorem beq_iff {y : Float} (hx : x.isFinite = true) (hy : y.isFinite = true) :
    (x == y) = true ↔ x = y ∨ (x = 0 ∨ x = -0) ∧ (y = 0 ∨ y = -0) := by
  rw [← magnitude_eq_zero_iff hx, ← magnitude_eq_zero_iff hy]
  constructor
  · exact eq_or_magnitude_eq_zero_of_beq hx hy
  · rintro (rfl | ⟨hzero, hzero'⟩)
    · exact beq_self_of_isFinite hx
    · exact beq_of_magnitude_eq_zero hzero hzero'

theorem beq_trans {y z : Float} (hx : x.isFinite = true) (hy : y.isFinite = true)
    (hz : z.isFinite = true) (hxy : (x == y) = true) (hyz : (y == z) = true) :
    (x == z) = true := by
  rcases eq_or_magnitude_eq_zero_of_beq hx hy hxy with rfl | ⟨hx0, hy0⟩
  · exact hyz
  rcases eq_or_magnitude_eq_zero_of_beq hy hz hyz with rfl | ⟨-, hz0⟩
  · exact hxy
  · exact beq_of_magnitude_eq_zero hx0 hz0

/-! ### Sign and absolute value -/

/-- The absolute value of a finite double is the double with its pattern and no sign. -/
theorem abs_eq_ofMagnitude (h : x.isFinite = true) : x.abs = ofMagnitude false (magnitude x) := by
  have hp := isFinite_iff.1 h
  have hword : (ofMagnitude false (magnitude x)).toBits.toNat = magnitude x :=
    toNat_toBits_ofMagnitude hp
  have hunpack : UnpackedFloat.unpack .binary64 (ofMagnitude false (magnitude x)).toBits.toBitVec =
      x.toModel.unpack.abs := unpack_eq_abs hword
  have hfinite : (ofMagnitude false (magnitude x)).toBits.toNat % 2 ^ 63 < Binary64.infinity :=
    isFinite_iff.1 (isFinite_ofMagnitude hp)
  refine toBits_injective (UInt64.toBitVec_inj.1 ?_)
  calc x.abs.toBits.toBitVec
      = UnpackedFloat.pack .binary64 x.toModel.unpack.abs := rfl
    _ = UnpackedFloat.pack .binary64
          (UnpackedFloat.unpack .binary64 (ofMagnitude false (magnitude x)).toBits.toBitVec) := by
        rw [hunpack]
    _ = (ofMagnitude false (magnitude x)).toBits.toBitVec := pack_unpack _ hfinite

theorem isNegative_iff_sign {sign : Sign} {m : Nat} {e : Int} {hm : 0 < m}
    (h : x.toModel.unpack = .finite sign m e hm) : isNegative x = true ↔ sign = .negative := by
  have hsign : sign = if 2 ^ 63 ≤ x.toBits.toNat then .negative else .positive := by
    rw [sign_of_unpack h, ofBitVec_unpackSign]
    rfl
  rw [hsign, isNegative, decide_eq_true_iff]
  split
  · next hbit => exact iff_of_true hbit rfl
  · next hbit => exact iff_of_false hbit (by simp)

/-- The finite doubles below zero are those with a sign, but `-0`. -/
theorem lt_zero_iff (h : x.isFinite = true) : x < 0 ↔ isNegative x = true ∧ magnitude x ≠ 0 := by
  have hlt : x < 0 ↔ x.toModel.unpack.compare (.zero .positive) = some .lt := by
    show Float.lt x 0 = true ↔ _
    unfold Float.lt
    rw [decide_eq_true_iff]
    exact beq_iff_eq
  have hfinite : x.toModel.unpack.isFinite = true := h
  rw [hlt]
  cases hx : x.toModel.unpack with
  | infinity sign =>
    rw [hx] at hfinite
    cases hfinite
  | notANumber =>
    rw [hx] at hfinite
    cases hfinite
  | zero sign =>
    have hzero := magnitude_eq_zero_of_unpack h hx
    simp [UnpackedFloat.compare, hzero]
  | finite sign m e hm =>
    have hne : magnitude x ≠ 0 := by
      intro hzero
      obtain ⟨s, hs⟩ := unpack_of_magnitude_eq_zero hzero
      rw [hs] at hx
      cases hx
    rw [isNegative_iff_sign hx]
    cases sign <;> simp [UnpackedFloat.compare, hne]

end Patterns

end FormulaSheet.Number
