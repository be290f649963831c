import Mathlib
import LineCalc.Double.Rank

/-!
# Rounding to a rank

The values of the ranks increase, and the step from one to the next is the weight of the last
bit of the significand (`units_eq_mul`). So each number lies between the values of two
neighbours, and `floorRank` finds the lower one. `Nearest` says what it means to round a number
of units, without saying how: no rank has a value that is nearer, and half way between two
values the rank is even. There is only one such rank (`Nearest.unique`), it is known from the
half-way points on both sides (`nearest_of_between`), and `nearestRank` finds it
(`nearest_nearestRank`).
-/

namespace LineCalc.Double

/-! ## Values of ranks -/

/-- How many units make one. -/
def unitsInOne : Nat := Nat.pow 2 1074

/-- A rank is an exponent and a significand, and its value is the significand times the power.
The significand may be one too large: then it is that of the first rank with the next
exponent. -/
theorem units_eq_mul {e m : Nat} (hm : m ≤ 2 ^ 53) (hnormal : 2 ^ 52 ≤ m ∨ e = 0) :
    units (e * 2 ^ 52 + m) = m * 2 ^ e := by
  show (if e * 2 ^ 52 + m < 2 ^ 52 then _ else (2 ^ 52 + (e * 2 ^ 52 + m) % 2 ^ 52) *
    2 ^ ((e * 2 ^ 52 + m) / 2 ^ 52 - 1)) = _
  by_cases hsmall : e * 2 ^ 52 + m < 2 ^ 52
  · obtain rfl : e = 0 := by omega
    rw [if_pos hsmall]
    omega
  · rw [if_neg hsmall]
    by_cases hnext : m = 2 ^ 53
    · have hdiv : (e * 2 ^ 52 + m) / 2 ^ 52 - 1 = e + 1 := by omega
      have hmod : (e * 2 ^ 52 + m) % 2 ^ 52 = 0 := by omega
      rw [hdiv, hmod, hnext, Nat.pow_succ 2 e]
      ring
    · have hdiv : (e * 2 ^ 52 + m) / 2 ^ 52 - 1 = e := by omega
      have hmod : 2 ^ 52 + (e * 2 ^ 52 + m) % 2 ^ 52 = m := by omega
      rw [hdiv, hmod]

/-- Every rank has an exponent and a significand. -/
theorem exists_significand (r : Nat) :
    ∃ e m, r = e * 2 ^ 52 + m ∧ m < 2 ^ 53 ∧ (2 ^ 52 ≤ m ∨ e = 0) :=
  ⟨r / 2 ^ 52 - 1, r - (r / 2 ^ 52 - 1) * 2 ^ 52, by omega, by omega, by omega⟩

theorem units_lt_units_succ (r : Nat) : units r < units (r + 1) := by
  obtain ⟨e, m, rfl, hm, hnormal⟩ := exists_significand r
  rw [Nat.add_assoc, units_eq_mul (by omega) hnormal, units_eq_mul (by omega) (by omega)]
  exact Nat.mul_lt_mul_of_pos_right (Nat.lt_succ_self m) (Nat.two_pow_pos e)

theorem strictMono_units : StrictMono units := strictMono_nat_of_lt_succ units_lt_units_succ

/-- A number of units lies between the values of two neighbours. -/
theorem units_floorRank (n : Nat) :
    units (floorRank n) ≤ n ∧ n < units (floorRank n + 1) := by
  let e := n.log2 - 52
  have hrank : floorRank n = e * 2 ^ 52 + n / 2 ^ e := rfl
  have hlt : n < 2 ^ 53 * 2 ^ e := by
    rw [← Nat.pow_add]
    exact Nat.lt_of_lt_of_le Nat.lt_log2_self (Nat.pow_le_pow_right (by decide) (by omega))
  have hm : n / 2 ^ e < 2 ^ 53 := Nat.div_lt_of_lt_mul (by rwa [Nat.mul_comm])
  have hnormal : 2 ^ 52 ≤ n / 2 ^ e ∨ e = 0 := by
    by_cases he : e = 0
    · exact .inr he
    · left
      have hn : n ≠ 0 := by
        rintro rfl
        exact he rfl
      rw [Nat.le_div_iff_mul_le (Nat.two_pow_pos e), ← Nat.pow_add]
      exact Nat.le_trans (Nat.pow_le_pow_right (by decide) (by omega)) (Nat.log2_self_le hn)
  rw [hrank, Nat.add_assoc, units_eq_mul hm.le hnormal, units_eq_mul hm (by omega)]
  refine ⟨Nat.div_mul_le_self n _, ?_⟩
  rw [Nat.mul_comm]
  exact Nat.lt_mul_div_succ n (Nat.two_pow_pos e)

/-- A whole number up to `2 ^ 53` is shifted to the left until the significand is full. -/
theorem exists_full_shift {n : Nat} (hzero : n ≠ 0) (h : n ≤ 2 ^ 53) :
    ∃ shift ≤ 52, 2 ^ 52 ≤ n * 2 ^ shift ∧ n * 2 ^ shift ≤ 2 ^ 53 := by
  by_cases hsmall : n < 2 ^ 52
  · have hlog : n.log2 < 52 := (Nat.log2_lt hzero).mpr hsmall
    refine ⟨52 - n.log2, Nat.sub_le _ _, ?_, ?_⟩
    · calc 2 ^ 52 = 2 ^ n.log2 * 2 ^ (52 - n.log2) := by rw [← Nat.pow_add]; congr 1; omega
        _ ≤ n * 2 ^ (52 - n.log2) := Nat.mul_le_mul_right _ (Nat.log2_self_le hzero)
    · calc n * 2 ^ (52 - n.log2)
          ≤ 2 ^ (n.log2 + 1) * 2 ^ (52 - n.log2) :=
            Nat.mul_le_mul_right _ Nat.lt_log2_self.le
        _ = 2 ^ 53 := by rw [← Nat.pow_add]; congr 1; omega
  · exact ⟨0, Nat.zero_le _, by omega, by omega⟩

/-- Each whole number up to `2 ^ 53` is the value of a rank. -/
theorem exists_units_eq {n : Nat} (h : n ≤ 2 ^ 53) : ∃ r < top, units r = n * unitsInOne := by
  have htop : top = 2047 * 2 ^ 52 := rfl
  by_cases hzero : n = 0
  · exact ⟨0, by decide, by rw [hzero, Nat.zero_mul]; rfl⟩
  · obtain ⟨shift, hshift, hlow, hhigh⟩ := exists_full_shift hzero h
    have hpow : ∀ k ≤ 1074, 2 ^ k * 2 ^ (1074 - k) = unitsInOne := by
      unfold unitsInOne
      generalize 1074 = l
      intro k hk
      show _ = 2 ^ l
      rw [← Nat.pow_add, Nat.add_sub_cancel' hk]
    refine ⟨(1074 - shift) * 2 ^ 52 + n * 2 ^ shift, by omega, ?_⟩
    rw [units_eq_mul hhigh (.inl hlow), Nat.mul_assoc, hpow shift (by omega)]

/-! ## The nearest value -/

section
variable {a b q : ℚ}

/-- Of two numbers the larger one is as near if the middle has been reached. -/
theorem abs_sub_upper_le_iff (hab : a < b) : |q - b| ≤ |q - a| ↔ a + b ≤ 2 * q := by
  have hsq : (q - a) ^ 2 - (q - b) ^ 2 = (b - a) * (2 * q - (a + b)) := by ring
  rw [← sq_le_sq, ← sub_nonneg, hsq, mul_nonneg_iff_of_pos_left (sub_pos.mpr hab), sub_nonneg]

/-- And the smaller one up to the middle. -/
theorem abs_sub_lower_le_iff (hab : a < b) : |q - a| ≤ |q - b| ↔ 2 * q ≤ a + b := by
  have hsq : (q - b) ^ 2 - (q - a) ^ 2 = (b - a) * (a + b - 2 * q) := by ring
  rw [← sq_le_sq, ← sub_nonneg, hsq, mul_nonneg_iff_of_pos_left (sub_pos.mpr hab), sub_nonneg]

end

/-- The rank whose value is nearest to `q` units. Half way between two values it is the even
one of their ranks. -/
structure Nearest (q : ℚ) (r : Nat) : Prop where
  le_top : r ≤ top
  nearest : ∀ r' ≤ top, |q - units r| ≤ |q - units r'|
  even : ∀ r' ≤ top, r' ≠ r → |q - units r'| = |q - units r| → r % 2 = 0

variable {q : ℚ} {r r' : Nat}

theorem cast_units_lt (h : r < r') : (units r : ℚ) < units r' :=
  Nat.cast_lt.mpr (strictMono_units h)

theorem cast_units_le (h : r ≤ r') : (units r : ℚ) ≤ units r' :=
  Nat.cast_le.mpr (strictMono_units.monotone h)

/-- The value of a rank rounds to it. -/
theorem nearest_units (h : r ≤ top) : Nearest (units r) r := by
  refine ⟨h, ?_, ?_⟩
  · intro r' _
    rw [sub_self, abs_zero]
    exact abs_nonneg _
  · intro r' _ hne htie
    rw [sub_self, abs_zero, abs_eq_zero, sub_eq_zero] at htie
    exact absurd (strictMono_units.injective (Nat.cast_injective htie)).symm hne

/-- A number rounds to a rank if it lies between the half-way points to the neighbours. It may
be such a point itself if the rank is even. -/
theorem nearest_of_between (hr : r ≤ top)
    (hlow : ∀ s, s + 1 = r → (units s : ℚ) + units r ≤ 2 * q ∧
      (2 * q = units s + units r → r % 2 = 0))
    (hhigh : r < top → 2 * q ≤ (units r : ℚ) + units (r + 1) ∧
      (2 * q = units r + units (r + 1) → r % 2 = 0)) : Nearest q r := by
  have hbelow : ∀ r' < r, |q - units r| ≤ |q - units r'| ∧
      (|q - units r'| = |q - units r| → r % 2 = 0) := by
    intro r' hr'
    obtain ⟨s, rfl⟩ := Nat.exists_eq_add_one_of_ne_zero (Nat.ne_zero_of_lt hr')
    obtain ⟨hle, heven⟩ := hlow s rfl
    have hs : (units r' : ℚ) ≤ units s := cast_units_le (by omega)
    rw [abs_sub_upper_le_iff (cast_units_lt hr')]
    refine ⟨by linarith, ?_⟩
    intro htie
    have hmiddle := (abs_sub_lower_le_iff (cast_units_lt hr')).mp htie.le
    exact heven (by linarith)
  have habove : ∀ r' ≤ top, r < r' → |q - units r| ≤ |q - units r'| ∧
      (|q - units r'| = |q - units r| → r % 2 = 0) := by
    intro r' hr' hlt
    obtain ⟨hle, heven⟩ := hhigh (by omega)
    have hs : (units (r + 1) : ℚ) ≤ units r' := cast_units_le (by omega)
    rw [abs_sub_lower_le_iff (cast_units_lt hlt)]
    refine ⟨by linarith, ?_⟩
    intro htie
    have hmiddle := (abs_sub_upper_le_iff (cast_units_lt hlt)).mp htie.le
    exact heven (by linarith)
  refine ⟨hr, ?_, ?_⟩
  · intro r' hr'
    rcases lt_trichotomy r' r with hlt | rfl | hlt
    · exact (hbelow r' hlt).1
    · exact le_refl _
    · exact (habove r' hr' hlt).1
  · intro r' hr' hne
    rcases lt_or_gt_of_ne hne with hlt | hlt
    · exact (hbelow r' hlt).2
    · exact (habove r' hr' hlt).2

/-- Two ranks cannot both be nearest: they would be neighbours, and both even. -/
theorem Nearest.not_lt (h : Nearest q r) (h' : Nearest q r') : ¬ r < r' := by
  intro hlt
  have htie : |q - units r'| = |q - units r| :=
    le_antisymm (h'.nearest r h.le_top) (h.nearest r' h'.le_top)
  have hlow := (abs_sub_lower_le_iff (cast_units_lt hlt)).mp htie.ge
  have hnext : r' = r + 1 := by
    by_contra hne
    have hbetween : r + 1 < r' := by omega
    have hle : r + 1 ≤ top := by
      have := h'.le_top
      omega
    -- the rank in between would be nearer
    have hhigh := (abs_sub_upper_le_iff (cast_units_lt hbetween)).mp (h'.nearest (r + 1) hle)
    have hstep : (units r : ℚ) < units (r + 1) := cast_units_lt (by omega)
    linarith
  have heven := h.even r' h'.le_top (by omega) htie
  have heven' := h'.even r h.le_top (by omega) htie.symm
  omega

theorem Nearest.unique (h : Nearest q r) (h' : Nearest q r') : r = r' := by
  have := h.not_lt h'
  have := h'.not_lt h
  omega

/-! ## Between two neighbours -/

section
variable {low : Nat}

/-- From the value of the top on, the top is nearest. -/
theorem nearest_top (htop : top ≤ low) (hlow : (units low : ℚ) ≤ q) : Nearest q top := by
  have hbig : (units top : ℚ) ≤ units low := cast_units_le htop
  refine nearest_of_between le_rfl ?_ (fun h => absurd h (lt_irrefl top))
  intro s hs
  have hstep : (units s : ℚ) < units top := cast_units_lt (by omega)
  exact ⟨by linarith, fun htie => by linarith⟩

/-- Up to the middle the lower neighbour is nearest, and in the middle if it is even. -/
theorem nearest_lower (htop : low < top) (hlow : (units low : ℚ) ≤ q)
    (h : 2 * q ≤ units low + units (low + 1))
    (heven : 2 * q = units low + units (low + 1) → low % 2 = 0) : Nearest q low := by
  refine nearest_of_between (by omega) ?_ fun _ => ⟨h, heven⟩
  intro s hs
  have hstep : (units s : ℚ) < units low := cast_units_lt (by omega)
  exact ⟨by linarith, fun htie => by linarith⟩

/-- From the middle on the upper neighbour is nearest, and in the middle if it is even. -/
theorem nearest_upper (htop : low < top) (hhigh : q < units (low + 1))
    (h : units low + units (low + 1) ≤ 2 * q)
    (heven : 2 * q = units low + units (low + 1) → (low + 1) % 2 = 0) : Nearest q (low + 1) := by
  have hstep : (units (low + 1) : ℚ) < units (low + 1 + 1) := cast_units_lt (by omega)
  refine nearest_of_between (by omega) ?_ fun _ => ⟨by linarith, fun htie => by linarith⟩
  intro s hs
  obtain rfl : s = low := by omega
  exact ⟨h, heven⟩

end

/-- A fraction is rounded to the nearest double. -/
theorem nearest_nearestRank (num : Nat) {den : Nat} (hden : 0 < den) :
    Nearest ((num * unitsInOne : Nat) / den) (nearestRank num den) := by
  unfold nearestRank unitsInOne
  generalize num * Nat.pow 2 1074 = scaled
  dsimp only
  generalize hfloor : floorRank (scaled / den) = low
  obtain ⟨hle, hlt⟩ := units_floorRank (scaled / den)
  rw [hfloor] at hle hlt
  have hden' : (0 : ℚ) < den := Nat.cast_pos.mpr hden
  have hlow : (units low : ℚ) ≤ scaled / den := by
    rw [le_div_iff₀ hden']
    exact_mod_cast (Nat.le_div_iff_mul_le hden).mp hle
  have hhigh : (scaled / den : ℚ) < units (low + 1) := by
    rw [div_lt_iff₀ hden']
    exact_mod_cast (Nat.div_lt_iff_lt_mul hden).mp hlt
  -- the middle is compared after both sides have been multiplied by the denominator
  have hmiddle : 2 * (scaled / den : ℚ) - (units low + units (low + 1)) =
      ((2 * scaled : Nat) - ((units low + units (low + 1)) * den : Nat)) / den := by
    push_cast
    field_simp
  split
  · rename_i htop
    exact nearest_top htop hlow
  · rename_i htop
    rw [Nat.not_le] at htop
    split
    · rename_i hless
      have hneg : 2 * (scaled / den : ℚ) - (units low + units (low + 1)) < 0 := by
        rw [hmiddle]
        exact div_neg_of_neg_of_pos (sub_neg.mpr (Nat.cast_lt.mpr hless)) hden'
      exact nearest_lower htop hlow (by linarith) fun htie => by linarith
    · rename_i hless
      split
      · rename_i hmore
        have hpos : 0 < 2 * (scaled / den : ℚ) - (units low + units (low + 1)) := by
          rw [hmiddle]
          exact div_pos (sub_pos.mpr (Nat.cast_lt.mpr hmore)) hden'
        exact nearest_upper htop hhigh (by linarith) fun htie => by linarith
      · rename_i hmore
        have htie : 2 * (scaled / den : ℚ) - (units low + units (low + 1)) = 0 := by
          rw [hmiddle, Nat.le_antisymm (Nat.not_lt.mp hmore) (Nat.not_lt.mp hless), sub_self,
            zero_div]
        rcases Nat.mod_two_eq_zero_or_one low with heven | hodd
        · rw [heven, Nat.add_zero]
          exact nearest_lower htop hlow (by linarith) fun _ => heven
        · rw [hodd]
          exact nearest_upper htop hhigh (by linarith) fun _ => by omega

end LineCalc.Double
