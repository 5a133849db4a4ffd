import Enablement.Proofs.Number.Integral
import Mathlib.Algebra.Group.Int.Even
/-!
# Numbers — rounding an integer is to the nearest

An integer of 64 bits lies on a pattern or between two neighbouring ones. It is rounded to the
nearer one, and half-way between the two to the even one (`Binary64.nearestEven_ofInt`). Patterns
are ordered as what they denote, so no other pattern comes as near.
-/

namespace Enablement

namespace Binary64

variable {x y : Binary64} {m n p : ℕ} {i k : ℤ} {q : ℚ}

/-- A number is the nearest of all finite ones to a rational, and of two equally near ones it is the
even one. -/
structure NearestEven (q : ℚ) (x : Binary64) : Prop where
  isFinite : x.isFinite = true
  nearest : ∀ y : Binary64, y.isFinite = true → |x.toRat - q| ≤ |y.toRat - q|
  even : ∀ y : Binary64, y.isFinite = true → y.toRat ≠ x.toRat →
    |y.toRat - q| = |x.toRat - q| → Even x.significand

/-- A pattern comes nearer to a rational than every other one, or as near and is even. -/
def NearestPattern (q : ℚ) (m : ℕ) : Prop :=
  ∀ k, k ≠ m → |patternValue m - q| < |patternValue k - q| ∨
    |patternValue m - q| = |patternValue k - q| ∧ Even m

/-! ## Patterns -/

/-- A pattern that denotes the rational is the nearest. -/
theorem nearestPattern_of_eq (h : patternValue m = q) : NearestPattern q m := by
  intro k hk
  left
  have hne : patternValue k ≠ q := by
    rw [← h]
    exact fun heq => hk (patternValue_strictMono.injective heq)
  rw [h, sub_self, abs_zero]
  exact abs_pos.mpr (sub_ne_zero.mpr hne)

/-- A pattern that is no neighbour is farther away than the neighbour on its side. -/
theorem lt_abs_of_lt (hlow : patternValue p ≤ q) (hk : m < p) :
    q - patternValue p < |patternValue m - q| := by
  have hlt := patternValue_strictMono hk
  rw [abs_sub_comm, abs_of_nonneg (by linarith)]
  linarith

theorem lt_abs_of_gt (hhigh : q ≤ patternValue p) (hk : p < m) :
    patternValue p - q < |patternValue m - q| := by
  have hlt := patternValue_strictMono hk
  rw [abs_of_nonneg (by linarith)]
  linarith

/-- Between two neighbours, the nearest pattern is the one that is nearer than the other, or as near
and even. -/
theorem nearestPattern_of_neighbours (hlow : patternValue p ≤ q)
    (hhigh : q ≤ patternValue (p + 1)) (hm : m = p ∨ m = p + 1)
    (h : ∀ k, k = p ∨ k = p + 1 → k ≠ m → |patternValue m - q| < |patternValue k - q| ∨
      |patternValue m - q| = |patternValue k - q| ∧ Even m) : NearestPattern q m := by
  have hle : ∀ k, k = p ∨ k = p + 1 → |patternValue m - q| ≤ |patternValue k - q| := by
    intro k hk
    by_cases hkm : k = m
    · rw [hkm]
    · rcases h k hk hkm with hlt | ⟨heq, -⟩
      · exact hlt.le
      · exact heq.le
  intro k hk
  rcases Nat.lt_trichotomy k p with hbelow | rfl | habove
  · have hp : |patternValue p - q| = q - patternValue p := by
      rw [abs_sub_comm, abs_of_nonneg (by linarith)]
    have hlt := hle p (.inl rfl)
    rw [hp] at hlt
    exact .inl (hlt.trans_lt (lt_abs_of_lt hlow hbelow))
  · exact h k (.inl rfl) hk
  · rcases Nat.eq_or_lt_of_le (Nat.succ_le_of_lt habove) with rfl | hfar
    · exact h _ (.inr rfl) hk
    · have hnext : |patternValue (p + 1) - q| = patternValue (p + 1) - q :=
        abs_of_nonneg (by linarith)
      have hlt := hle (p + 1) (.inr rfl)
      rw [hnext] at hlt
      exact .inl (hlt.trans_lt (lt_abs_of_gt hhigh hfar))

/-! ## Rounding a natural number -/

/-- A large number lies between the pattern of its leading 53 places and the next one: what the
places leave over is the rest of a division. -/
theorem patternValue_leading (hn : 2 ^ 53 ≤ n) {d p : ℕ} (hd : d = 2 ^ (n.log2 - 52))
    (hp : p = (n.log2 + 1022) * 2 ^ 52 + n / d) :
    patternValue p = n - (n % d : ℕ) ∧ patternValue (p + 1) = n + (d - n % d : ℕ) := by
  have hne : n ≠ 0 := by omega
  have hlog : 53 ≤ n.log2 := (Nat.le_log2 hne).2 hn
  obtain ⟨s, hs⟩ := Nat.exists_eq_add_of_le (show 52 ≤ n.log2 by omega)
  obtain rfl : d = 2 ^ s := by rw [hd, hs, Nat.add_sub_cancel_left]
  have hpos : 0 < 2 ^ s := Nat.two_pow_pos s
  have hsplit : n / 2 ^ s * 2 ^ s + n % 2 ^ s = n := Nat.div_add_mod' n (2 ^ s)
  have hrest : n % 2 ^ s < 2 ^ s := Nat.mod_lt n hpos
  have hlow : 2 ^ 52 ≤ n / 2 ^ s := by
    rw [Nat.le_div_iff_mul_le hpos, ← pow_add, ← hs]
    exact Nat.log2_self_le hne
  have hhigh : n / 2 ^ s < 2 * 2 ^ 52 := by
    have hlt : n < 2 ^ n.log2 * 2 := Nat.lt_log2_self
    rw [Nat.div_lt_iff_lt_mul hpos]
    calc n < 2 ^ n.log2 * 2 := hlt
      _ = 2 * 2 ^ 52 * 2 ^ s := by rw [hs, pow_add]; ring
  obtain ⟨f, hf⟩ := Nat.exists_eq_add_of_le hlow
  have hfields : p = (n.log2 + 1022 + 1) * 2 ^ 52 + f := by rw [hp, hf]; ring
  have hunit : ((n.log2 + 1022 : ℕ) : ℤ) + 1 - 1075 = s := by omega
  have hvalue : patternValue p = (n / 2 ^ s * 2 ^ s : ℕ) := by
    rw [hfields, patternValue_normal (by omega), ← hf, hunit, zpow_natCast]
    push_cast
    rfl
  have hnext : patternValue (p + 1) = patternValue p + (2 ^ s : ℕ) := by
    have hfield : p / pow2 52 = n.log2 + 1023 := by rw [hfields, pow2_eq]; omega
    have hmax : max (n.log2 + 1023) 1 = n.log2 + 1023 := by omega
    have hexponent : ((n.log2 + 1023 : ℕ) : ℤ) - 1075 = s := by omega
    rw [patternValue_succ, hfield, hmax, hexponent, zpow_natCast]
    push_cast
    rfl
  constructor
  · rw [hvalue, eq_sub_iff_add_eq]
    exact_mod_cast hsplit
  · rw [hnext, hvalue]
    have hnat : n / 2 ^ s * 2 ^ s + 2 ^ s = n + (2 ^ s - n % 2 ^ s) := by omega
    exact_mod_cast hnat

/-- The quotient is rounded to one of the two integers next to it: to the nearer one, half-way to
the even one. -/
theorem divideEven_cases (n : ℕ) {d : ℕ} (hd : 0 < d) :
    (divideEven n d = n / d ∧ (2 * (n % d) < d ∨ 2 * (n % d) = d ∧ Even (n / d))) ∨
    (divideEven n d = n / d + 1 ∧
      (2 * (d - n % d) < d ∨ 2 * (d - n % d) = d ∧ Even (n / d + 1))) := by
  have hr := Nat.mod_lt n hd
  simp only [divideEven, Nat.even_iff]
  split
  · left
    omega
  · split
    · right
      omega
    · rcases Nat.mod_two_eq_zero_or_one (n / d) with heven | hodd
      · left
        omega
      · right
        omega

/-- The pattern of a large number is that of its leading places with the rest rounded. -/
theorem nearestMagnitude_of_large (hn : 2 ^ 53 ≤ n) (hn' : n < 2 ^ 64) :
    nearestMagnitude n 1 = (n.log2 + 1022) * 2 ^ 52 + divideEven n (2 ^ (n.log2 - 52)) ∧
      nearestMagnitude n 1 < infiniteMagnitude := by
  have hne : n ≠ 0 := by omega
  have hlog : n.log2 ≤ 63 := Nat.lt_succ_iff.1 ((Nat.log2_lt hne).2 hn')
  have hlog' : 53 ≤ n.log2 := (Nat.le_log2 hne).2 hn
  have hpos : 0 < 2 ^ (n.log2 - 52) := Nat.two_pow_pos _
  have hquotient : n / 2 ^ (n.log2 - 52) < 2 ^ 53 := by
    rw [Nat.div_lt_iff_lt_mul hpos, ← pow_add, show 53 + (n.log2 - 52) = n.log2 + 1 by omega]
    exact Nat.lt_log2_self
  have hle : divideEven n (2 ^ (n.log2 - 52)) ≤ 2 ^ 53 := by
    rcases divideEven_cases n hpos with ⟨heq, -⟩ | ⟨heq, -⟩ <;> omega
  have hdown : 52 - n.log2 = 0 := by omega
  have hinfinite : infiniteMagnitude = 2047 * 2 ^ 52 := rfl
  rw [nearestMagnitude_one hne, hdown, pow_zero, mul_one, hinfinite]
  omega

/-- Of two neighbours at the distances of a rest, the one is the nearest pattern that the rest is
rounded to. -/
theorem nearestPattern_of_rest {r d : ℕ} (hr : r < d) (hlow : patternValue p = n - r)
    (hhigh : patternValue (p + 1) = n + (d - r : ℕ))
    (hm : m = p ∧ (2 * r < d ∨ 2 * r = d ∧ Even p) ∨
      m = p + 1 ∧ (2 * (d - r) < d ∨ 2 * (d - r) = d ∧ Even (p + 1))) : NearestPattern n m := by
  have hdistance : |patternValue p - n| = (r : ℕ) := by
    rw [hlow, sub_sub_cancel_left, abs_neg, Nat.abs_cast]
  have hdistance' : |patternValue (p + 1) - n| = (d - r : ℕ) := by
    rw [hhigh, add_sub_cancel_left, Nat.abs_cast]
  have hbelow : patternValue p ≤ n := by
    rw [hlow]
    exact sub_le_self _ (Nat.cast_nonneg _)
  have habove : (n : ℚ) ≤ patternValue (p + 1) := by
    rw [hhigh]
    exact le_add_of_nonneg_right (Nat.cast_nonneg _)
  rcases hm with ⟨rfl, hnear⟩ | ⟨rfl, hnear⟩
  · refine nearestPattern_of_neighbours hbelow habove (.inl rfl) fun k hk hkm => ?_
    obtain rfl : k = m + 1 := hk.resolve_left hkm
    rw [hdistance, hdistance', Nat.cast_lt, Nat.cast_inj]
    rcases hnear with hlt | ⟨hhalf, heven⟩
    · left
      omega
    · exact .inr ⟨by omega, heven⟩
  · refine nearestPattern_of_neighbours hbelow habove (.inr rfl) fun k hk hkp => ?_
    obtain rfl : k = p := hk.resolve_right hkp
    rw [hdistance, hdistance', Nat.cast_lt, Nat.cast_inj]
    rcases hnear with hlt | ⟨hhalf, heven⟩
    · left
      omega
    · exact .inr ⟨by omega, heven⟩

/-- **A natural number of 64 bits is rounded to the nearest pattern**, which is a finite one. -/
theorem nearestPattern_nearestMagnitude (hn : n < 2 ^ 64) :
    NearestPattern n (nearestMagnitude n 1) ∧ nearestMagnitude n 1 < infiniteMagnitude := by
  by_cases hsmall : n < 2 ^ 53
  · have hvalue := patternValue_nearestMagnitude hsmall
    have hlt : patternValue (nearestMagnitude n 1) < patternValue (1076 * 2 ^ 52) := by
      rw [hvalue, patternValue_threshold]
      exact_mod_cast hsmall
    have hbound := patternValue_strictMono.lt_iff_lt.1 hlt
    have hinfinite : infiniteMagnitude = 2047 * 2 ^ 52 := rfl
    exact ⟨nearestPattern_of_eq hvalue, by omega⟩
  obtain ⟨hmagnitude, hfinite⟩ := nearestMagnitude_of_large (not_lt.1 hsmall) hn
  refine ⟨?_, hfinite⟩
  set d := 2 ^ (n.log2 - 52) with hd
  set p := (n.log2 + 1022) * 2 ^ 52 + n / d with hp
  have hpos : 0 < d := Nat.two_pow_pos _
  obtain ⟨hlow, hhigh⟩ := patternValue_leading (not_lt.1 hsmall) hd hp
  refine nearestPattern_of_rest (Nat.mod_lt n hpos) hlow hhigh ?_
  -- the pattern is even with the leading places
  have hparity : Even p ↔ Even (n / d) := by
    rw [Nat.even_iff, Nat.even_iff]
    omega
  have hparity' : Even (p + 1) ↔ Even (n / d + 1) := by
    rw [Nat.even_iff, Nat.even_iff]
    omega
  rw [hmagnitude, hparity, hparity']
  rcases divideEven_cases n hpos with ⟨heq, hnear⟩ | ⟨heq, hnear⟩
  · exact .inl ⟨by rw [heq], hnear⟩
  · exact .inr ⟨by rw [heq, hp, Nat.add_assoc], hnear⟩

/-! ## Rounding an integer -/

theorem natAbs_key (x : Binary64) : x.key.natAbs = x.magnitude := by
  rw [key]
  split <;> omega

/-- A significand is even with the pattern. -/
theorem even_significand_iff : Even x.significand ↔ Even x.magnitude := by
  rw [significand, pow2_eq, Nat.even_iff, Nat.even_iff]
  split <;> omega

/-- A natural number is rounded to the nearest of all keys, those below zero included. -/
theorem nearest_key_natCast (hn : n < 2 ^ 64) (hk : k ≠ nearestMagnitude n 1) :
    |patternValue (nearestMagnitude n 1) - n| < |keyValue k - n| ∨
      |patternValue (nearestMagnitude n 1) - n| = |keyValue k - n| ∧
        Even (nearestMagnitude n 1 : ℤ) := by
  obtain ⟨hnearest, -⟩ := nearestPattern_nearestMagnitude hn
  rcases lt_or_ge k 0 with hneg | hnonneg
  · left
    -- zero is nearer than anything below it
    have hzero : |patternValue (nearestMagnitude n 1) - n| ≤ n := by
      have habs : |patternValue 0 - n| = n := by
        rw [patternValue_zero, zero_sub, abs_neg, Nat.abs_cast]
      by_cases hm : 0 = nearestMagnitude n 1
      · rw [← hm, habs]
      · rcases hnearest 0 hm with hlt | ⟨heq, -⟩ <;> linarith
    have hvalue : keyValue k < 0 := by
      have hlt := keyValue_strictMono hneg
      rwa [show keyValue 0 = 0 from patternValue_zero] at hlt
    have hn0 : (0 : ℚ) ≤ n := Nat.cast_nonneg n
    have habs : |keyValue k - n| = n - keyValue k := by
      rw [abs_sub_comm]
      exact abs_of_nonneg (by linarith)
    rw [habs]
    linarith
  · obtain ⟨j, rfl⟩ := Int.eq_ofNat_of_zero_le hnonneg
    rw [keyValue_natCast, Int.even_coe_nat]
    exact hnearest j fun heq => hk (by rw [heq])

/-- An integer is rounded to the nearest of all keys, below zero as above. -/
theorem nearest_key_ofInt (hi : i.natAbs < 2 ^ 64) (hk : k ≠ (ofInt i).key) :
    |keyValue (ofInt i).key - i| < |keyValue k - i| ∨
      |keyValue (ofInt i).key - i| = |keyValue k - i| ∧ Even (ofInt i).key := by
  rw [key_ofInt] at hk ⊢
  by_cases hneg : i < 0
  · rw [if_pos hneg] at hk ⊢
    have hcast : (i : ℚ) = -(i.natAbs : ℚ) := by
      rw [← Int.cast_natCast, ← Int.cast_neg]
      congr 1
      omega
    have hflip : ∀ j : ℤ, |keyValue j - i| = |keyValue (-j) - i.natAbs| := by
      intro j
      rw [hcast, keyValue_neg, ← abs_neg]
      congr 1
      ring
    rw [hflip, hflip k, neg_neg, keyValue_natCast, even_neg]
    exact nearest_key_natCast hi fun heq => hk (by rw [← heq, neg_neg])
  · rw [if_neg hneg] at hk ⊢
    have hcast : (i : ℚ) = (i.natAbs : ℚ) := by
      rw [← Int.cast_natCast]
      congr 1
      omega
    rw [hcast, keyValue_natCast]
    exact nearest_key_natCast hi hk

/-- **Integers of 64 bits are rounded to the nearest number**, half-way to the even one. -/
theorem nearestEven_ofInt (hi : i.natAbs < 2 ^ 64) : NearestEven i (ofInt i) := by
  have hmagnitude : (ofInt i).magnitude = nearestMagnitude i.natAbs 1 := by
    rw [← natAbs_key, key_ofInt]
    split <;> omega
  constructor
  · obtain ⟨-, hfinite⟩ := nearestPattern_nearestMagnitude hi
    rw [isFinite, hmagnitude, decide_eq_true hfinite]
  · intro y hy
    rw [← keyValue_key, ← keyValue_key]
    by_cases hkey : y.key = (ofInt i).key
    · rw [hkey]
    · rcases nearest_key_ofInt hi hkey with hlt | ⟨heq, -⟩
      · exact hlt.le
      · exact heq.le
  · intro y hy hne htie
    rw [← keyValue_key, ← keyValue_key] at hne htie
    have hkey : y.key ≠ (ofInt i).key := fun heq => hne (by rw [heq])
    rcases nearest_key_ofInt hi hkey with hlt | ⟨-, heven⟩
    · exact absurd htie hlt.ne'
    · rwa [even_significand_iff, ← natAbs_key, Int.natAbs_even]

end Binary64

end Enablement
