import Mathlib
import LineCalc.Proofs.Rounding

/-!
# The value of a double

What a double stands for, by its sign, significand and exponent, and how this is told from its
rank: below `top` it is a finite number of units (`value_eq`), at `top` it is infinite, and
above it is not a number. A rank up to `top` is that of a double (`rank_ofRank`).

`RoundsTo` is rounding to the nearest double, ties to even, with overflow to infinity. Rounding
to the nearest rank is the same (`roundsTo_iff`).
-/

namespace LineCalc.Double

open Float.Model (UnpackedFloat Format)
open Float.Model.UnpackedFloat

/-! ## The fields of a double -/

theorem toNat_unpackMantissa (b : BitVec 64) :
    (@unpackMantissa .binary64 b).toNat = b.toNat % 2 ^ 52 := by
  rw [unpackMantissa_def, BitVec.extractLsb'_toNat, Nat.shiftRight_zero]

theorem toNat_unpackExponent (b : BitVec 64) :
    (@unpackExponent .binary64 b).toNat = b.toNat / 2 ^ 52 % 2 ^ 11 := by
  rw [unpackExponent_def, BitVec.extractLsb'_toNat, Nat.shiftRight_eq_div_pow]

theorem toNat_unpackSign (b : BitVec 64) :
    (@unpackSign .binary64 b).toNat = b.toNat / 2 ^ 63 := by
  have := b.isLt
  rw [unpackSign_def, BitVec.extractLsb'_toNat, Nat.shiftRight_eq_div_pow]
  show b.toNat / 2 ^ 63 % 2 ^ 1 = _
  omega

theorem toNat_one_append (m : BitVec 52) : (1#1 ++ m).toNat = 2 ^ 52 + m.toNat := by
  have hor := Nat.two_pow_add_eq_or_of_lt m.isLt 1
  rw [Nat.mul_one] at hor
  rw [BitVec.toNat_append, hor]
  rfl

/-- The sign of a double. -/
def sign (x : Float) : Sign := if isNegative x then .negative else .positive

/-- What a double is, by its rank. -/
inductive Unpacked (x : Float) : UnpackedFloat → Prop
  | notANumber (h : top < rank x) : Unpacked x .notANumber
  | infinity (h : rank x = top) : Unpacked x (.infinity (sign x))
  | zero (h : rank x = 0) : Unpacked x (.zero (sign x))
  | finite {e m : Nat} (h : rank x = e * 2 ^ 52 + m) (hm : m < 2 ^ 53)
      (hnormal : 2 ^ 52 ≤ m ∨ e = 0) (hlt : rank x < top) (hpos : 0 < m) :
      Unpacked x (.finite (sign x) m (e - 1074) hpos)

theorem ofBitVec_unpackSign (x : Float) :
    Sign.ofBitVec (@unpackSign .binary64 x.toBits.toBitVec) = sign x := by
  have hfield := toNat_unpackSign x.toBits.toBitVec
  have hbit : @unpackSign .binary64 x.toBits.toBitVec = 0#1 ↔ ¬ isNegative x = true := by
    rw [← BitVec.toNat_inj, hfield, isNegative, decide_eq_true_eq]
    show x.toBits.toNat / 2 ^ 63 = 0 ↔ ¬ 2 ^ 63 ≤ x.toBits.toNat
    omega
  by_cases hnegative : isNegative x = true
  · rw [Sign.ofBitVec, if_neg (by rw [hbit]; exact not_not_intro hnegative), sign,
      if_pos hnegative]
  · rw [Sign.ofBitVec, if_pos (hbit.mpr hnegative), sign, if_neg hnegative]

theorem rank_eq_fields (x : Float) :
    rank x = (@unpackExponent .binary64 x.toBits.toBitVec).toNat * 2 ^ 52 +
      (@unpackMantissa .binary64 x.toBits.toBitVec).toNat := by
  rw [toNat_unpackExponent, toNat_unpackMantissa]
  show x.toBits.toBitVec.toNat % 2 ^ 63 = _
  omega

theorem unpacked (x : Float) : Unpacked x x.toModel.unpack := by
  have htop : top = 2047 * 2 ^ 52 := rfl
  show Unpacked x (UnpackedFloat.unpack .binary64 x.toBits.toBitVec)
  fun_cases UnpackedFloat.unpack .binary64 x.toBits.toBitVec with
  | case1 m e _ s he hm =>
    have hrank : rank x = e.toNat * 2 ^ 52 + m.toNat := rank_eq_fields x
    have hsign : s = sign x := ofBitVec_unpackSign x
    have he' : e.toNat = 2047 := congrArg BitVec.toNat he
    have hm' : m.toNat = 0 := congrArg BitVec.toNat hm
    rw [hsign]
    exact .infinity (by omega)
  | case2 m e he hm =>
    have hrank : rank x = e.toNat * 2 ^ 52 + m.toNat := rank_eq_fields x
    have he' : e.toNat = 2047 := congrArg BitVec.toNat he
    have hm' : m.toNat ≠ 0 := fun h => hm (BitVec.eq_of_toNat_eq h)
    exact .notANumber (by omega)
  | case3 m e _ s _ he hm =>
    have hrank : rank x = e.toNat * 2 ^ 52 + m.toNat := rank_eq_fields x
    have hsign : s = sign x := ofBitVec_unpackSign x
    have he' : e.toNat = 0 := congrArg BitVec.toNat he
    have hm' : m.toNat = 0 := congrArg BitVec.toNat hm
    rw [hsign]
    exact .zero (by omega)
  | case4 m e exponent _ s _ he hm =>
    -- without the implicit bit the exponent is the least one
    have hrank : rank x = e.toNat * 2 ^ 52 + m.toNat := rank_eq_fields x
    have hsign : s = sign x := ofBitVec_unpackSign x
    have he' : e.toNat = 0 := congrArg BitVec.toNat he
    have hm' : m.toNat < 2 ^ 52 := m.isLt
    have hsmall : rank x = 0 * 2 ^ 52 + m.toNat ∧ rank x < top := by
      clear exponent
      omega
    have hexponent : exponent + 1 = ((0 : Nat) : Int) - 1074 := by
      show (e.toNat : Int) - (1023 + 52) + 1 = _
      rw [he']
      rfl
    simp only [hsign, hexponent]
    exact .finite hsmall.1 (hm'.trans (by decide)) (.inr rfl) hsmall.2 _
  | case5 m e exponent _ s hall he =>
    have hrank : rank x = e.toNat * 2 ^ 52 + m.toNat := rank_eq_fields x
    have hsign : s = sign x := ofBitVec_unpackSign x
    have he' : e.toNat ≠ 0 := fun h => he (BitVec.eq_of_toNat_eq h)
    have hall' : e.toNat ≠ 2047 := fun h => hall (BitVec.eq_of_toNat_eq h)
    have heLt : e.toNat < 2 ^ 11 := e.isLt
    have hm' : m.toNat < 2 ^ 52 := m.isLt
    have hnormal : rank x = (e.toNat - 1) * 2 ^ 52 + (2 ^ 52 + m.toNat) ∧ rank x < top ∧
        2 ^ 52 + m.toNat < 2 ^ 53 ∧ (e.toNat : Int) - (1023 + 52) = (e.toNat - 1 : Nat) - 1074 := by
      clear exponent
      omega
    have hexponent : exponent = ((e.toNat - 1 : Nat) : Int) - 1074 := hnormal.2.2.2
    have hone : (1#1 ++ m).toNat = 2 ^ 52 + m.toNat := toNat_one_append m
    simp only [hsign, hexponent, hone]
    exact .finite hnormal.1 hnormal.2.2.1 (.inl (Nat.le_add_right _ _)) hnormal.2.1 _

/-! ## Classes of doubles -/

section
variable {x y : Float}

theorem isFinite_iff : x.isFinite = true ↔ rank x < top := by
  have h := unpacked x
  show x.toModel.unpack.isFinite = true ↔ _
  generalize x.toModel.unpack = u at h ⊢
  cases h with
  | notANumber h => exact ⟨fun h' => (Bool.false_ne_true h').elim, fun h' => absurd h' h.asymm⟩
  | infinity h => exact ⟨fun h' => (Bool.false_ne_true h').elim, fun h' => absurd h h'.ne⟩
  | zero h => exact ⟨fun _ => by rw [h]; decide, fun _ => rfl⟩
  | finite h hm hnormal hlt hpos => exact ⟨fun _ => hlt, fun _ => rfl⟩

theorem isInf_iff : x.isInf = true ↔ rank x = top := by
  have h := unpacked x
  show x.toModel.unpack.isInf = true ↔ _
  generalize x.toModel.unpack = u at h ⊢
  cases h with
  | notANumber h => exact ⟨fun h' => (Bool.false_ne_true h').elim, fun h' => absurd h' h.ne'⟩
  | infinity h => exact ⟨fun _ => h, fun _ => rfl⟩
  | zero h =>
    refine ⟨fun h' => (Bool.false_ne_true h').elim, fun h' => ?_⟩
    rw [h] at h'
    cases h'
  | finite h hm hnormal hlt hpos =>
    exact ⟨fun h' => (Bool.false_ne_true h').elim, fun h' => absurd h' hlt.ne⟩

theorem isNaN_eq_false (hrank : rank x ≤ top) : x.isNaN = false := by
  have h := unpacked x
  show x.toModel.unpack.isNaN = false
  generalize x.toModel.unpack = u at h ⊢
  cases h with
  | notANumber h => exact absurd hrank (not_le.mpr h)
  | _ => rfl

/-- A double is known from its sign and its rank. -/
theorem eq_of_rank_eq (hsign : isNegative x = isNegative y) (hrank : rank x = rank y) : x = y := by
  have hx := x.toBits.toNat_lt
  have hy := y.toBits.toNat_lt
  have hpow : signBit = 2 ^ 63 := rfl
  rw [isNegative, isNegative, decide_eq_decide, hpow] at hsign
  rw [rank, rank, hpow] at hrank
  rw [← Float.toBits_inj, ← UInt64.toNat_inj]
  omega

theorem toBits_mod_two : x.toBits.toNat % 2 = rank x % 2 := by
  have hpow : signBit = 2 ^ 63 := rfl
  rw [rank, hpow]
  omega

end

/-! ## Doubles from ranks -/

theorem toBits_ofBits {b : UInt64} (h : b.toNat % signBit ≤ top) : (Float.ofBits b).toBits = b := by
  have hnumber : ¬ @isNaNBits .binary64 b.toBitVec = true := by
    rw [isNaNBits, decide_eq_true_eq]
    intro ⟨he, hm⟩
    have he' : (@unpackExponent .binary64 b.toBitVec).toNat = 2047 := congrArg BitVec.toNat he
    have hm' : (@unpackMantissa .binary64 b.toBitVec).toNat ≠ 0 :=
      fun h => hm (BitVec.eq_of_toNat_eq h)
    rw [toNat_unpackExponent] at he'
    rw [toNat_unpackMantissa] at hm'
    have hbound : b.toBitVec.toNat % 2 ^ 63 ≤ 2047 * 2 ^ 52 := h
    omega
  apply UInt64.toBitVec_inj.mp
  show (UnpackedFloat.unpack .binary64 b.toBitVec).pack .binary64 = _
  rw [pack_unpack, if_neg hnumber]

section
variable {r : Nat}

theorem toNat_toBits_ofRank (h : r ≤ top) : (ofRank false r).toBits.toNat = r := by
  have hnat : (UInt64.ofNat r).toNat = r :=
    UInt64.toNat_ofNat_of_lt (h.trans_lt (by decide))
  show (Float.ofBits (UInt64.ofNat (r + 0))).toBits.toNat = r
  rw [Nat.add_zero, toBits_ofBits, hnat]
  rw [hnat]
  exact (Nat.mod_le r signBit).trans h

@[simp] theorem rank_ofRank (h : r ≤ top) : rank (ofRank false r) = r := by
  rw [rank, toNat_toBits_ofRank h]
  exact Nat.mod_eq_of_lt (h.trans_lt (by decide))

@[simp] theorem isNegative_ofRank (h : r ≤ top) : isNegative (ofRank false r) = false := by
  rw [isNegative, toNat_toBits_ofRank h, decide_eq_false_iff_not, Nat.not_le]
  exact h.trans_lt (by decide)

end

/-! ## Values -/

/-- The number that a double stands for. Infinity has none, nor has what is not a number. -/
def value (x : Float) : ℚ :=
  match x.toModel.unpack with
  | .finite sign m e _ => sign.apply m * 2 ^ e
  | _ => 0

theorem cast_unitsInOne : (unitsInOne : ℚ) = 2 ^ 1074 := by
  unfold unitsInOne
  generalize 1074 = n
  show ((2 ^ n : Nat) : ℚ) = 2 ^ n
  rw [Nat.cast_pow, Nat.cast_ofNat]

theorem unitsInOne_pos : (0 : ℚ) < unitsInOne := by
  rw [cast_unitsInOne]
  exact pow_pos two_pos _

theorem Sign.apply_mul (s : Sign) (m n : Int) : s.apply (m * n) = s.apply m * n := by
  cases s with
  | negative => exact (neg_mul m n).symm
  | positive => rfl

theorem value_eq {x : Float} (hfinite : rank x < top) :
    value x = (sign x).apply (units (rank x)) / unitsInOne := by
  have h := unpacked x
  unfold value
  generalize x.toModel.unpack = u at h ⊢
  cases h with
  | notANumber h => exact absurd hfinite h.asymm
  | infinity h => exact absurd h hfinite.ne
  | zero h =>
    have hzero : (sign x).apply (units 0) = 0 := by
      cases sign x <;> rfl
    rw [h, hzero, Int.cast_zero, zero_div]
  | @finite e m h hm hnormal hlt hpos =>
    rw [h, units_eq_mul hm.le hnormal, Nat.cast_mul, Sign.apply_mul, cast_unitsInOne]
    show ((sign x).apply m : ℚ) * 2 ^ ((e : ℤ) - (1074 : Nat)) = _
    rw [zpow_sub₀ two_ne_zero, zpow_natCast, zpow_natCast, Int.cast_mul, Int.cast_natCast,
      Nat.cast_pow, Nat.cast_ofNat, mul_div_assoc]

section
variable {q : ℚ} {x : Float} {r : Nat}

theorem abs_value (hfinite : rank x < top) : |value x| = units (rank x) / unitsInOne := by
  have hnonneg : (0 : ℚ) ≤ units (rank x) / unitsInOne :=
    div_nonneg (Nat.cast_nonneg _) unitsInOne_pos.le
  rw [value_eq hfinite]
  cases sign x with
  | negative =>
    show |((-(units (rank x) : ℤ) : ℤ) : ℚ) / unitsInOne| = _
    rw [Int.cast_neg, neg_div, abs_neg]
    exact abs_of_nonneg hnonneg
  | positive => exact abs_of_nonneg hnonneg

theorem abs_value_of_positive (hpositive : isNegative x = false) (hfinite : rank x < top) :
    |value x| = value x := by
  rw [abs_value hfinite, value_eq hfinite, sign, hpositive]
  rfl

theorem value_ofRank (h : r < top) : value (ofRank false r) = units r / unitsInOne := by
  have hrank : rank (ofRank false r) = r := rank_ofRank h.le
  rw [← abs_value_of_positive (isNegative_ofRank h.le) (hrank.trans_lt h),
    abs_value (hrank.trans_lt h), hrank]

/-- A distance in units is a distance times a constant. -/
theorem abs_sub_units (r : Nat) :
    |q * unitsInOne - units r| = |q - units r / unitsInOne| * unitsInOne := by
  have hpos := unitsInOne_pos
  rw [← abs_of_pos hpos, ← abs_mul, abs_of_pos hpos, sub_mul, div_mul_cancel₀ _ hpos.ne']

theorem abs_sub_units_rank (hfinite : rank x < top) :
    |q * unitsInOne - units (rank x)| = |q - (|value x|)| * unitsInOne := by
  rw [abs_sub_units, abs_value hfinite]

end

/-! ## Rounding to a double -/

/-- The point half way from the largest finite double to the power of two that would follow. -/
def overflow : ℚ := 2 ^ 1024 - 2 ^ 970

theorem units_largest_add_units_top :
    (units (top - 1) : ℚ) + units top = 2 * (overflow * unitsInOne) := by
  have hlargest : top - 1 = (970 + 1 + 1074) * 2 ^ 52 + (2 ^ 53 - 1) := by decide
  have htop : top = (970 + 2 + 1074) * 2 ^ 52 + 2 ^ 52 := by decide
  have hmiddle : ∀ k l : Nat, ((2 ^ 53 - 1 : Nat) : ℚ) * 2 ^ (k + 1 + l) +
      ((2 ^ 52 : Nat) : ℚ) * 2 ^ (k + 2 + l) = 2 * ((2 ^ (k + 54) - 2 ^ k) * 2 ^ l) := by
    intro k l
    push_cast
    ring
  rw [hlargest, htop, units_eq_mul (by decide) (.inl (by decide)),
    units_eq_mul (by decide) (.inl (by decide)), Nat.cast_mul, Nat.cast_mul, Nat.cast_pow,
    Nat.cast_pow 2 (970 + 2 + 1074), Nat.cast_ofNat, overflow, cast_unitsInOne]
  exact hmiddle 970 1074

/-- The double nearest to a number that is not negative. Half way between two doubles it is the
one whose last bit is zero, and what is too large for a finite double is infinity. -/
structure RoundsTo (q : ℚ) (x : Float) : Prop where
  positive : isNegative x = false
  infinite : x.isInf = true ↔ overflow ≤ q
  finite : x.isFinite = true ↔ q < overflow
  nearest : x.isFinite = true → ∀ y : Float, y.isFinite = true → |q - value x| ≤ |q - value y|
  even : x.isFinite = true → ∀ y : Float, y.isFinite = true → value y ≠ value x →
    |q - value y| = |q - value x| → x.toBits.toNat % 2 = 0

section
variable {q : ℚ} {x y : Float}

/-- The number of units at which the largest finite double is left. -/
theorem overflow_le_iff : overflow ≤ q ↔
    (units (top - 1) : ℚ) + units top ≤ 2 * (q * unitsInOne) := by
  rw [units_largest_add_units_top, mul_le_mul_iff_right₀ two_pos,
    mul_le_mul_iff_left₀ unitsInOne_pos]

theorem nearest_of_overflow_le (h : overflow ≤ q) : Nearest (q * unitsInOne) top := by
  refine nearest_of_between le_rfl ?_ (fun h => absurd h (lt_irrefl top))
  intro s hs
  obtain rfl : s = top - 1 := by omega
  exact ⟨overflow_le_iff.mp h, fun _ => by decide⟩

/-- From the overflow point on, and only then, the top is nearest. -/
theorem Nearest.eq_top_iff {r : Nat} (h : Nearest (q * unitsInOne) r) :
    r = top ↔ overflow ≤ q := by
  have hlargest : top - 1 < top := by decide
  rw [overflow_le_iff]
  constructor
  · intro heq
    have hnear := h.nearest (top - 1) hlargest.le
    rw [heq] at hnear
    exact (abs_sub_upper_le_iff (cast_units_lt hlargest)).mp hnear
  · intro hle
    exact h.unique (nearest_of_overflow_le (overflow_le_iff.mpr hle))

/-- From a number that is not negative the way to a magnitude is not longer. -/
theorem abs_sub_abs_le (hq : 0 ≤ q) (a : ℚ) : |q - (|a|)| ≤ |q - a| := by
  have h := abs_abs_sub_abs_le q a
  rwa [abs_of_nonneg hq] at h

/-- Two values that are equally near do not belong to one rank: the opposite of the nearest double
is further away than zero. -/
theorem Nearest.rank_ne_of_tie (hq : 0 ≤ q) (hpositive : isNegative x = false)
    (h : Nearest (q * unitsInOne) (rank x)) (hx : rank x < top) (hy : rank y < top)
    (hne : value y ≠ value x) (htie : |q - value y| = |q - value x|) : rank y ≠ rank x := by
  intro hrank
  have hvalue := abs_value_of_positive hpositive hx
  have hmagnitude : |value y| = value x := by
    rw [← hvalue, abs_value hy, hrank, abs_value hx]
  have hnonneg : 0 ≤ value x := hmagnitude ▸ abs_nonneg _
  have hopposite : value y = -value x := ((abs_eq hnonneg).mp hmagnitude).resolve_left hne
  have hzero : |q - value x| ≤ |q - 0| := by
    have hnear := h.nearest 0 (Nat.zero_le _)
    rw [abs_sub_units_rank hx, hvalue, abs_sub_units,
      mul_le_mul_iff_left₀ unitsInOne_pos] at hnear
    rwa [show ((units 0 : Nat) : ℚ) = 0 from Nat.cast_zero, zero_div] at hnear
  rw [hopposite, sub_neg_eq_add, abs_of_nonneg (add_nonneg hq hnonneg)] at htie
  rw [← htie, sub_zero, abs_of_nonneg hq] at hzero
  exact hne (by linarith)

theorem Nearest.roundsTo (hq : 0 ≤ q) (hpositive : isNegative x = false)
    (h : Nearest (q * unitsInOne) (rank x)) : RoundsTo q x := by
  have hinfinite : x.isInf = true ↔ overflow ≤ q := isInf_iff.trans h.eq_top_iff
  have hfinite : x.isFinite = true ↔ q < overflow := by
    rw [isFinite_iff, lt_iff_le_and_ne, and_iff_right h.le_top, ← not_le, ← h.eq_top_iff]
  have hnearest : x.isFinite = true → ∀ y : Float, y.isFinite = true →
      |q - value x| ≤ |q - (|value y|)| := by
    intro hx y hy
    have hnear := h.nearest (rank y) (isFinite_iff.mp hy).le
    rwa [abs_sub_units_rank (isFinite_iff.mp hx), abs_sub_units_rank (isFinite_iff.mp hy),
      abs_value_of_positive hpositive (isFinite_iff.mp hx),
      mul_le_mul_iff_left₀ unitsInOne_pos] at hnear
  refine ⟨hpositive, hinfinite, hfinite, ?_, ?_⟩
  · intro hx y hy
    exact (hnearest hx y hy).trans (abs_sub_abs_le hq _)
  · intro hx y hy hne htie
    have htie' : |q - (|value y|)| = |q - value x| :=
      le_antisymm ((abs_sub_abs_le hq _).trans htie.le) (hnearest hx y hy)
    rw [isFinite_iff] at hx hy
    rw [toBits_mod_two]
    apply h.even (rank y) hy.le (h.rank_ne_of_tie hq hpositive hx hy hne htie)
    rw [abs_sub_units_rank hx, abs_sub_units_rank hy, htie', abs_value_of_positive hpositive hx]

theorem RoundsTo.nearestRank (h : RoundsTo q x) : Nearest (q * unitsInOne) (rank x) := by
  by_cases hq : overflow ≤ q
  · rw [isInf_iff.mp (h.infinite.mpr hq)]
    exact nearest_of_overflow_le hq
  · have hlargest : top - 1 < top := by decide
    have hx := h.finite.mpr (not_le.mp hq)
    have hrank := isFinite_iff.mp hx
    have hvalue := abs_value_of_positive h.positive hrank
    have hfinite : ∀ r < top, (ofRank false r).isFinite = true := by
      intro r hr
      rw [isFinite_iff, rank_ofRank hr.le]
      exact hr
    have hunits : ∀ r < top, |q * unitsInOne - units r| =
        |q - value (ofRank false r)| * unitsInOne := by
      intro r hr
      rw [abs_sub_units, value_ofRank hr]
    have hnearest : ∀ r < top, |q * unitsInOne - units (rank x)| ≤ |q * unitsInOne - units r| := by
      intro r hr
      rw [abs_sub_units_rank hrank, hvalue, hunits r hr, mul_le_mul_iff_left₀ unitsInOne_pos]
      exact h.nearest hx _ (hfinite r hr)
    -- the largest finite double is nearer than what would follow
    have htop : |q * unitsInOne - units (rank x)| < |q * unitsInOne - units top| := by
      refine (hnearest (top - 1) hlargest).trans_lt ?_
      rwa [← not_le, abs_sub_upper_le_iff (cast_units_lt hlargest), ← overflow_le_iff]
    refine ⟨hrank.le, ?_, ?_⟩
    · intro r hr
      rcases hr.lt_or_eq with hlt | rfl
      · exact hnearest r hlt
      · exact htop.le
    · intro r hr hne htie
      rcases hr.lt_or_eq with hlt | rfl
      · rw [abs_sub_units_rank hrank, hvalue, hunits r hlt] at htie
        rw [← toBits_mod_two]
        refine h.even hx _ (hfinite r hlt) ?_ (mul_right_cancel₀ unitsInOne_pos.ne' htie)
        intro heq
        rw [value_ofRank hlt, ← hvalue, abs_value hrank, div_left_inj' unitsInOne_pos.ne'] at heq
        exact hne (strictMono_units.injective (Nat.cast_injective heq))
      · exact absurd htie htop.ne'

/-- Rounding to a double is rounding to its rank. -/
theorem roundsTo_iff (hq : 0 ≤ q) :
    RoundsTo q x ↔ isNegative x = false ∧ Nearest (q * unitsInOne) (rank x) :=
  ⟨fun h => ⟨h.positive, h.nearestRank⟩, fun h => h.2.roundsTo hq h.1⟩

/-- The value of a rank rounds to it. -/
theorem roundsTo_units {r : Nat} (h : r < top) :
    RoundsTo (units r / unitsInOne) (ofRank false r) := by
  rw [roundsTo_iff (div_nonneg (Nat.cast_nonneg _) unitsInOne_pos.le), isNegative_ofRank h.le,
    rank_ofRank h.le, div_mul_cancel₀ _ unitsInOne_pos.ne']
  exact ⟨rfl, nearest_units h.le⟩

theorem RoundsTo.unique (h : RoundsTo q x) (h' : RoundsTo q y) : x = y :=
  eq_of_rank_eq (h.positive.trans h'.positive.symm) (h.nearestRank.unique h'.nearestRank)

end

end LineCalc.Double
