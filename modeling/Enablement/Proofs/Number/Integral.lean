import Enablement.Proofs.Number.Exact
import Mathlib.Tactic.NormNum
/-!
# Numbers — integers among the floating-point numbers

An integer is rounded to the floating-point number next to it. Up to `2 ^ 53` nothing is rounded
away, and beyond that what comes out is beyond it, too (`keyValue_ofInt`). A finite number is an
integer exactly if it is read as one (`toInt?_eq_some_iff`); one that is none has digits behind the
point, and is smaller than `2 ^ 53`.
-/

namespace Enablement

namespace Binary64

variable {x y : Binary64} {m n : ℕ} {i : ℤ}

/-! ## Putting patterns together -/

theorem infiniteMagnitude_lt : infiniteMagnitude < pow2 63 := by decide

theorem bits_ofMagnitude (negative : Bool) (h : m < pow2 63) :
    (ofMagnitude negative m).bits.toNat = m + if negative then pow2 63 else 0 := by
  rw [pow2_eq] at h
  refine UInt64.toNat_ofNat_of_lt' ?_
  cases negative <;> simp only [if_true, Bool.false_eq_true, if_false, UInt64.size, pow2_eq] <;>
    omega

theorem key_ofMagnitude (negative : Bool) (h : m < pow2 63) :
    (ofMagnitude negative m).key = if negative then -(m : ℤ) else m := by
  have hbits := bits_ofMagnitude negative h
  rw [key, isNegative, magnitude, hbits]
  cases negative with
  | true =>
    rw [if_pos rfl, Nat.add_mod_right, Nat.mod_eq_of_lt h, decide_eq_true (Nat.le_add_left _ _)]
  | false =>
    rw [if_neg Bool.false_ne_true, Nat.add_zero, Nat.mod_eq_of_lt h,
      decide_eq_false (Nat.not_le.2 h)]

theorem nearestMagnitude_lt (n d : ℕ) : nearestMagnitude n d < pow2 63 := by
  rw [nearestMagnitude]
  split
  · decide
  · exact (Nat.min_le_right _ _).trans_lt infiniteMagnitude_lt

theorem key_ofInt (i : ℤ) :
    (ofInt i).key = if i < 0 then -(nearestMagnitude i.natAbs 1 : ℤ)
      else nearestMagnitude i.natAbs 1 := by
  rw [ofInt, ofRatio, key_ofMagnitude _ (nearestMagnitude_lt _ _)]
  by_cases hi : i < 0
  · rw [decide_eq_true hi, if_pos rfl, if_pos hi]
  · rw [decide_eq_false hi, if_neg Bool.false_ne_true, if_neg hi]

/-! ## Rounding an integer -/

theorem divideEven_one (n : ℕ) : divideEven n 1 = n := by
  simp only [divideEven, Nat.div_one, Nat.mod_one]
  rfl

theorem div_le_divideEven (n d : ℕ) : n / d ≤ divideEven n d := by
  simp only [divideEven]
  split
  · exact le_rfl
  · split
    · exact Nat.le_succ _
    · exact Nat.le_add_right _ _

/-- The pattern of a rounded integer: its leading bit decides in what the others are counted. -/
theorem nearestMagnitude_one (hn : n ≠ 0) :
    nearestMagnitude n 1 = min ((n.log2 + 1022) * 2 ^ 52 +
      divideEven (n * 2 ^ (52 - n.log2)) (2 ^ (n.log2 - 52))) infiniteMagnitude := by
  have hlog : (Nat.log2 1 : ℤ) = 0 := rfl
  have hlead : (1 * pow2 n.log2 ≤ n * pow2 (-(n.log2 : ℤ)).toNat) ↔ True := by
    have hneg : (-(n.log2 : ℤ)).toNat = 0 := by omega
    rw [hneg, pow2_eq, pow2_eq, one_mul, pow_zero, mul_one]
    exact iff_true_intro (Nat.log2_self_le hn)
  have hscale : scale n 1 = (n.log2 : ℤ) - 52 := by
    simp only [scale, hlog, sub_zero, Int.toNat_natCast, hlead, decide_true, if_true]
    omega
  have hdown : (-((n.log2 : ℤ) - 52)).toNat = 52 - n.log2 := by omega
  have hup : ((n.log2 : ℤ) - 52).toNat = n.log2 - 52 := by omega
  have hfield : ((n.log2 : ℤ) - 52 + 1074).toNat = n.log2 + 1022 := by omega
  rw [nearestMagnitude, if_neg hn]
  simp only [hscale, hdown, hup, hfield, pow2_eq, one_mul]

/-- **An integer up to `2 ^ 53` is not rounded.** -/
theorem patternValue_nearestMagnitude (hn : n < 2 ^ 53) :
    patternValue (nearestMagnitude n 1) = n := by
  rcases Nat.eq_zero_or_pos n with rfl | hpos
  · exact patternValue_zero
  have hne : n ≠ 0 := hpos.ne'
  have hlog : n.log2 ≤ 52 := Nat.lt_succ_iff.1 ((Nat.log2_lt hne).2 hn)
  obtain ⟨k, hk⟩ := Nat.exists_eq_add_of_le hlog
  have hpow : 2 ^ n.log2 * 2 ^ k = 2 ^ 52 := by rw [← pow_add, ← hk]
  -- the significand has its leading bit in the place that is not written
  have hlow : 2 ^ 52 ≤ n * 2 ^ k := hpow ▸ Nat.mul_le_mul_right _ (Nat.log2_self_le hne)
  have hhigh : n * 2 ^ k < 2 * 2 ^ 52 := by
    have hlt : n < 2 ^ n.log2 * 2 := Nat.lt_log2_self
    calc n * 2 ^ k < 2 ^ n.log2 * 2 * 2 ^ k := Nat.mul_lt_mul_of_pos_right hlt (by positivity)
      _ = 2 * 2 ^ 52 := by rw [← hpow]; ring
  obtain ⟨f, hf⟩ := Nat.exists_eq_add_of_le hlow
  have hdown : 52 - n.log2 = k := by omega
  have hup : n.log2 - 52 = 0 := by omega
  have hpattern : nearestMagnitude n 1 = (n.log2 + 1022 + 1) * 2 ^ 52 + f := by
    rw [nearestMagnitude_one hne, hdown, hup, pow_zero, divideEven_one, infiniteMagnitude, pow2_eq]
    omega
  have hunit : ((n.log2 + 1022 : ℕ) : ℤ) + 1 - 1075 = -(k : ℤ) := by omega
  rw [hpattern, patternValue_normal (by omega), ← hf, hunit, zpow_neg, zpow_natCast]
  push_cast
  rw [mul_inv_cancel_right₀ (by positivity)]

/-- One beyond that stays beyond it. -/
theorem le_nearestMagnitude (hn : 2 ^ 53 ≤ n) : 1076 * 2 ^ 52 ≤ nearestMagnitude n 1 := by
  have hne : n ≠ 0 := by omega
  have hlog : 53 ≤ n.log2 := (Nat.le_log2 hne).2 hn
  have hup : 2 ^ 52 * 2 ^ (n.log2 - 52) ≤ n := by
    rw [← pow_add, show 52 + (n.log2 - 52) = n.log2 by omega]
    exact Nat.log2_self_le hne
  have hdiv : 2 ^ 52 ≤ divideEven n (2 ^ (n.log2 - 52)) :=
    ((Nat.le_div_iff_mul_le (by positivity)).2 hup).trans (div_le_divideEven _ _)
  have hdown : 52 - n.log2 = 0 := by omega
  rw [nearestMagnitude_one hne, hdown, pow_zero, mul_one, infiniteMagnitude, pow2_eq]
  omega

theorem patternValue_threshold : patternValue (1076 * 2 ^ 52) = 2 ^ 53 := by
  have h := patternValue_normal (e := 1075) (f := 0) (by norm_num)
  norm_num at h ⊢
  exact h

/-- **Rounding an integer does not carry it across smaller numbers.** -/
theorem keyValue_ofInt (i : ℤ) :
    keyValue (ofInt i).key = i ∨ (2 ^ 53 : ℚ) ≤ i ∧ 2 ^ 53 ≤ keyValue (ofInt i).key ∨
      (i : ℚ) ≤ -2 ^ 53 ∧ keyValue (ofInt i).key ≤ -2 ^ 53 := by
  have habs : keyValue (ofInt i).key = if i < 0 then -patternValue (nearestMagnitude i.natAbs 1)
      else patternValue (nearestMagnitude i.natAbs 1) := by
    rw [key_ofInt]
    split
    · rw [keyValue_neg, keyValue_natCast]
    · rw [keyValue_natCast]
  by_cases hn : i.natAbs < 2 ^ 53
  · left
    rw [habs, patternValue_nearestMagnitude hn]
    split
    · rw [← Int.cast_natCast, ← Int.cast_neg, show -((i.natAbs : ℕ) : ℤ) = i by omega]
    · rw [← Int.cast_natCast, show ((i.natAbs : ℕ) : ℤ) = i by omega]
  · right
    have hvalue : 2 ^ 53 ≤ patternValue (nearestMagnitude i.natAbs 1) := by
      rw [← patternValue_threshold]
      exact patternValue_strictMono.monotone (le_nearestMagnitude (Nat.not_lt.1 hn))
    rw [habs]
    by_cases hi : i < 0
    · rw [if_pos hi]
      have hint : i ≤ -2 ^ 53 := by omega
      exact .inr ⟨by exact_mod_cast hint, neg_le_neg hvalue⟩
    · rw [if_neg hi]
      have hint : 2 ^ 53 ≤ i := by omega
      exact .inl ⟨by exact_mod_cast hint, hvalue⟩

/-- So a rounded integer compares with a smaller number as the integer does. -/
theorem cmp_keyValue_ofInt (i : ℤ) {q : ℚ} (hq : |q| < 2 ^ 53) :
    cmp (keyValue (ofInt i).key) q = cmp (i : ℚ) q := by
  obtain ⟨hlow, hhigh⟩ := abs_lt.1 hq
  rcases keyValue_ofInt i with heq | ⟨hi, hk⟩ | ⟨hi, hk⟩
  · rw [heq]
  · rw [(cmp_eq_gt_iff _ _).2 (hhigh.trans_le hk), (cmp_eq_gt_iff _ _).2 (hhigh.trans_le hi)]
  · rw [(cmp_eq_lt_iff _ _).2 (hk.trans_lt hlow), (cmp_eq_lt_iff _ _).2 (hi.trans_lt hlow)]

/-! ## Reading an integer -/

theorem significand_lt (x : Binary64) : x.significand < 2 ^ 53 := by
  rw [significand, pow2_eq]
  split <;> omega

theorem significand_mul_nonneg (x : Binary64) : 0 ≤ (x.significand : ℚ) * 2 ^ x.exponent :=
  mul_nonneg (Nat.cast_nonneg _) (zpow_nonneg zero_le_two _)

/-- A significand and a power of two make a natural number exactly if no digits are left behind the
point. -/
theorem significand_mul_eq_iff (x : Binary64) (a : ℕ) :
    (x.significand : ℚ) * 2 ^ x.exponent = a ↔ x.significand % pow2 (-x.exponent).toNat = 0 ∧
      x.significand / pow2 (-x.exponent).toNat * pow2 x.exponent.toNat = a := by
  simp only [pow2_eq]
  obtain ⟨k, hk | hk⟩ := Int.eq_nat_or_neg x.exponent
  · have hdown : (-(k : ℤ)).toNat = 0 := by omega
    rw [hk, hdown, Int.toNat_natCast, pow_zero, Nat.mod_one, Nat.div_one, zpow_natCast]
    refine ⟨fun h => ⟨rfl, ?_⟩, fun h => ?_⟩
    · exact_mod_cast h
    · exact_mod_cast h.2
  · have hup : (-(k : ℤ)).toNat = 0 := by omega
    have hpow : (0 : ℚ) < 2 ^ k := by positivity
    rw [hk, hup, neg_neg, Int.toNat_natCast, pow_zero, mul_one, zpow_neg, zpow_natCast,
      mul_inv_eq_iff_eq_mul₀ hpow.ne']
    refine ⟨fun h => ?_, fun ⟨hmod, hdiv⟩ => ?_⟩
    · have hnat : x.significand = a * 2 ^ k := by exact_mod_cast h
      rw [hnat]
      exact ⟨Nat.mul_mod_left _ _, Nat.mul_div_cancel _ (by positivity)⟩
    · have hnat : x.significand = a * 2 ^ k := by
        rw [← hdiv, Nat.div_mul_cancel (Nat.dvd_of_mod_eq_zero hmod)]
      exact_mod_cast hnat

/-- **A finite number is an integer exactly if it is read as that integer.** -/
theorem toInt?_eq_some_iff : x.toInt? = some i ↔ x.isFinite = true ∧ x.toRat = i := by
  have hnonneg := x.significand_mul_nonneg
  rw [toInt?, toRat]
  cases hfinite : x.isFinite with
  | false =>
    constructor
    · intro h
      cases h
    · rintro ⟨h, -⟩
      cases h
  | true =>
    rw [Bool.not_true, if_neg Bool.false_ne_true]
    dsimp only
    constructor
    · intro h
      refine ⟨rfl, ?_⟩
      split at h
      · next hmod =>
        have hvalue := (x.significand_mul_eq_iff _).2 ⟨hmod, rfl⟩
        rw [← Option.some.inj h, hvalue]
        cases x.isNegative with
        | true => rw [if_pos rfl, if_pos rfl, Int.cast_neg, Int.cast_natCast]
        | false =>
          rw [if_neg Bool.false_ne_true, if_neg Bool.false_ne_true, Int.cast_natCast]
      · cases h
    · rintro ⟨-, h⟩
      -- the integer is the one without a sign, with the sign put back
      obtain ⟨a, ha⟩ : ∃ a : ℕ, i = if x.isNegative then -(a : ℤ) else a := by
        cases hs : x.isNegative with
        | true =>
          rw [hs, if_pos rfl, neg_eq_iff_eq_neg] at h
          rw [h, ← Int.cast_neg, Int.cast_nonneg_iff] at hnonneg
          exact ⟨(-i).toNat, by rw [if_pos rfl]; omega⟩
        | false =>
          rw [hs, if_neg Bool.false_ne_true] at h
          rw [h, Int.cast_nonneg_iff] at hnonneg
          exact ⟨i.toNat, by rw [if_neg Bool.false_ne_true]; omega⟩
      have hvalue : (x.significand : ℚ) * 2 ^ x.exponent = a := by
        rw [ha] at h
        cases hs : x.isNegative with
        | true =>
          rw [hs, if_pos rfl, if_pos rfl, Int.cast_neg, Int.cast_natCast] at h
          exact neg_injective h
        | false =>
          rwa [hs, if_neg Bool.false_ne_true, if_neg Bool.false_ne_true, Int.cast_natCast] at h
      obtain ⟨hmod, hwhole⟩ := (x.significand_mul_eq_iff a).1 hvalue
      rw [if_pos hmod, hwhole, ha]

/-- A finite number that is no integer is smaller than `2 ^ 53`. -/
theorem abs_toRat_lt (h : ∀ i : ℤ, x.toRat ≠ i) : |x.toRat| < 2 ^ 53 := by
  have habs : |x.toRat| = x.significand * 2 ^ x.exponent := by
    rw [toRat]
    split
    · rw [abs_neg, abs_of_nonneg x.significand_mul_nonneg]
    · exact abs_of_nonneg x.significand_mul_nonneg
  have hexp : x.exponent ≤ 0 := by
    by_contra hpos
    obtain ⟨k, hk⟩ := Int.eq_ofNat_of_zero_le (not_le.1 hpos).le
    rw [toRat, hk, zpow_natCast] at h
    split at h
    · exact h (-(x.significand * 2 ^ k : ℕ)) (by push_cast; rfl)
    · exact h (x.significand * 2 ^ k : ℕ) (by push_cast; rfl)
  have hle : (2 : ℚ) ^ x.exponent ≤ 1 := zpow_le_one_of_nonpos₀ one_le_two hexp
  have hlt : (x.significand : ℚ) < 2 ^ 53 := by exact_mod_cast x.significand_lt
  rw [habs]
  calc (x.significand : ℚ) * 2 ^ x.exponent ≤ x.significand * 1 := by gcongr
    _ < 2 ^ 53 := by rwa [mul_one]

end Binary64

end Enablement
