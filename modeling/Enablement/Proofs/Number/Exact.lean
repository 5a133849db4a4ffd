import Enablement.Number.Basic
import Mathlib.Algebra.Order.Field.Basic
import Mathlib.Data.Int.ConditionallyCompleteOrder
import Mathlib.Data.Rat.Cast.Order
import Mathlib.Order.Compare
import Mathlib.Order.WithBot
import Mathlib.Tactic.Linarith
import Mathlib.Tactic.Ring
/-!
# Numbers — exact values

A finite floating-point number denotes a rational: its significand times a power of two. Patterns
without a sign are ordered as these rationals are, because the next pattern denotes the next
rational, one unit further on (`patternValue_succ`). So comparing the keys of two numbers compares
what they denote (`Binary64.compare_eq`).
-/

namespace Enablement

theorem pow2_eq (n : ℕ) : pow2 n = 2 ^ n := rfl

/-- What numbers denote, in order: the rationals between the two infinities, and above all of them
what is not a number. -/
abbrev ExactValue := WithTop (WithTop (WithBot ℚ))

/-- A rational as an exact value. -/
def ExactValue.ofRat (q : ℚ) : ExactValue := (((q : WithBot ℚ) : WithTop (WithBot ℚ)) : ExactValue)

theorem ExactValue.ofRat_strictMono : StrictMono ofRat := fun _ _ h =>
  WithTop.coe_lt_coe.2 (WithTop.coe_lt_coe.2 (WithBot.coe_lt_coe.2 h))

namespace Binary64

/-! ## Patterns -/

/-- What a magnitude pattern denotes. -/
def patternValue (m : ℕ) : ℚ :=
  ((if m / pow2 52 = 0 then m % pow2 52 else pow2 52 + m % pow2 52 : ℕ) : ℚ) *
    2 ^ (((max (m / pow2 52) 1 : ℕ) : ℤ) - 1075)

/-- Where the leading bit is not written, it is counted. -/
theorem patternValue_normal {e f : ℕ} (hf : f < 2 ^ 52) :
    patternValue ((e + 1) * 2 ^ 52 + f) = ((2 ^ 52 + f : ℕ) : ℚ) * 2 ^ ((e : ℤ) + 1 - 1075) := by
  have hdiv : ((e + 1) * 2 ^ 52 + f) / pow2 52 = e + 1 := by rw [pow2_eq]; omega
  have hmod : ((e + 1) * 2 ^ 52 + f) % pow2 52 = f := by rw [pow2_eq]; omega
  have hmax : max (e + 1) 1 = e + 1 := by omega
  rw [patternValue, hdiv, hmod, if_neg (Nat.succ_ne_zero e), hmax, pow2_eq]
  push_cast
  rfl

/-- Below the normal patterns there is no leading bit. -/
theorem patternValue_subnormal {f : ℕ} (hf : f < 2 ^ 52) :
    patternValue f = (f : ℚ) * 2 ^ ((0 : ℤ) + 1 - 1075) := by
  have hdiv : f / pow2 52 = 0 := by rw [pow2_eq]; omega
  have hmod : f % pow2 52 = f := by rw [pow2_eq]; omega
  rw [patternValue, hdiv, hmod, if_pos rfl]
  rfl

/-- **The next pattern denotes the next rational**, one unit further on, also where the exponent
changes. -/
theorem patternValue_succ (m : ℕ) :
    patternValue (m + 1) =
      patternValue m + 2 ^ (((max (m / pow2 52) 1 : ℕ) : ℤ) - 1075) := by
  obtain ⟨e, f, hf, rfl⟩ : ∃ e f, f < 2 ^ 52 ∧ m = e * 2 ^ 52 + f :=
    ⟨m / 2 ^ 52, m % 2 ^ 52, by omega, by omega⟩
  have hdiv : (e * 2 ^ 52 + f) / pow2 52 = e := by rw [pow2_eq]; omega
  rw [hdiv]
  cases e with
  | zero =>
    have hunit : ((max 0 1 : ℕ) : ℤ) - 1075 = (0 : ℤ) + 1 - 1075 := rfl
    rw [Nat.zero_mul, Nat.zero_add, patternValue_subnormal hf, hunit]
    by_cases hcarry : f + 1 < 2 ^ 52
    · rw [patternValue_subnormal hcarry, Nat.cast_add_one, add_one_mul]
    · obtain rfl : f = 2 ^ 52 - 1 := by omega
      have hnext : 2 ^ 52 - 1 + 1 = (0 + 1) * 2 ^ 52 + 0 := by omega
      rw [hnext, patternValue_normal (by norm_num), Nat.cast_zero, ← add_one_mul,
        ← Nat.cast_add_one]
      rfl
  | succ e =>
    have hmax : max (e + 1) 1 = e + 1 := by omega
    have hunit : ((e + 1 : ℕ) : ℤ) - 1075 = (e : ℤ) + 1 - 1075 := by push_cast; ring
    rw [patternValue_normal hf, hmax, hunit]
    by_cases hcarry : f + 1 < 2 ^ 52
    · rw [Nat.add_assoc, patternValue_normal hcarry, ← Nat.add_assoc, Nat.cast_add_one,
        add_one_mul]
    · obtain rfl : f = 2 ^ 52 - 1 := by omega
      have hnext : (e + 1) * 2 ^ 52 + (2 ^ 52 - 1) + 1 = (e + 1 + 1) * 2 ^ 52 + 0 := by omega
      have htwice : ((e + 1 : ℕ) : ℤ) + 1 - 1075 = ((e : ℤ) + 1 - 1075) + 1 := by push_cast; ring
      rw [hnext, patternValue_normal (by norm_num), htwice, zpow_add_one₀ two_ne_zero]
      push_cast
      ring

theorem patternValue_strictMono : StrictMono patternValue := by
  refine strictMono_nat_of_lt_succ fun m => ?_
  rw [patternValue_succ]
  exact lt_add_of_pos_right _ (zpow_pos two_pos _)

theorem patternValue_zero : patternValue 0 = 0 := by
  rw [patternValue_subnormal (by norm_num), Nat.cast_zero, zero_mul]

/-! ## Keys -/

/-- What a key denotes: that of a pattern with a sign. -/
def keyValue (k : ℤ) : ℚ := if k < 0 then -patternValue k.natAbs else patternValue k.natAbs

theorem keyValue_natCast (m : ℕ) : keyValue m = patternValue m := by
  rw [keyValue, if_neg (by omega), Int.natAbs_natCast]

theorem keyValue_neg (k : ℤ) : keyValue (-k) = -keyValue k := by
  rw [keyValue, keyValue, Int.natAbs_neg]
  rcases lt_trichotomy k 0 with hk | rfl | hk
  · rw [if_neg (by omega), if_pos hk, neg_neg]
  · rw [if_neg (by omega), if_neg (by omega), Int.natAbs_zero, patternValue_zero, neg_zero]
  · rw [if_pos (by omega), if_neg (by omega)]

theorem keyValue_strictMono : StrictMono keyValue := by
  have hnonneg : ∀ {a b : ℤ}, 0 ≤ a → a < b → keyValue a < keyValue b := by
    intro a b ha hab
    rw [keyValue, keyValue, if_neg (by omega), if_neg (by omega)]
    exact patternValue_strictMono (by omega)
  intro a b hab
  by_cases ha : 0 ≤ a
  · exact hnonneg ha hab
  · have hzero : keyValue 0 = 0 := patternValue_zero
    have hneg : 0 < keyValue (-a) := hzero ▸ hnonneg le_rfl (by omega)
    rw [keyValue_neg] at hneg
    by_cases hb : 0 ≤ b
    · have hpos : 0 ≤ keyValue b := by
        rcases hb.eq_or_lt with rfl | hb
        · exact hzero.ge
        · exact hzero ▸ (hnonneg le_rfl hb).le
      linarith
    · have hflip := hnonneg (a := -b) (b := -a) (by omega) (by omega)
      rw [keyValue_neg, keyValue_neg] at hflip
      linarith

/-- What keys up to the infinite ones stand for. -/
def keyLevel (k : ℤ) : WithTop (WithBot ℚ) :=
  if infiniteMagnitude ≤ k then ⊤
  else if k ≤ -infiniteMagnitude then ⊥
  else ((keyValue k : WithBot ℚ) : WithTop (WithBot ℚ))

theorem keyLevel_strictMonoOn :
    StrictMonoOn keyLevel (Set.Icc (-(infiniteMagnitude : ℤ)) infiniteMagnitude) := by
  intro a ha b hb hab
  obtain ⟨ha, -⟩ := ha
  obtain ⟨-, hb⟩ := hb
  have hfinite : ¬ (infiniteMagnitude : ℤ) ≤ a := by omega
  have hnegative : ¬ b ≤ -(infiniteMagnitude : ℤ) := by omega
  rw [keyLevel, if_neg hfinite, keyLevel, if_neg hnegative]
  by_cases ha' : a ≤ -(infiniteMagnitude : ℤ)
  · rw [if_pos ha']
    split
    · exact bot_lt_top
    · exact WithTop.coe_lt_coe.2 (WithBot.bot_lt_coe _)
  · rw [if_neg ha']
    split
    · exact WithTop.coe_lt_top _
    · exact WithTop.coe_lt_coe.2 (WithBot.coe_lt_coe.2 (keyValue_strictMono hab))

/-! ## Numbers -/

/-- What a finite number denotes. -/
def toRat (x : Binary64) : ℚ :=
  if x.isNegative then -(x.significand * 2 ^ x.exponent) else x.significand * 2 ^ x.exponent

/-- What a number denotes. -/
def exact (x : Binary64) : ExactValue :=
  if x.isNaN then ⊤
  else if x.isFinite then .ofRat x.toRat
  else if x.isNegative then (⊥ : WithTop (WithBot ℚ))
  else (⊤ : WithTop (WithBot ℚ))

variable {x y : Binary64}

theorem keyValue_key (x : Binary64) : keyValue x.key = x.toRat := by
  have hpattern : patternValue x.magnitude = x.significand * 2 ^ x.exponent := rfl
  rw [key, toRat, ← hpattern]
  cases x.isNegative with
  | true => rw [if_pos rfl, if_pos rfl, keyValue_neg, keyValue_natCast]
  | false => rw [if_neg Bool.false_ne_true, if_neg Bool.false_ne_true, keyValue_natCast]

theorem exact_of_isNaN (h : x.isNaN = true) : x.exact = ⊤ := by
  rw [exact, if_pos h]

/-- A number is above one infinity and below the other. -/
theorem key_mem_Icc (h : x.isNaN = false) :
    x.key ∈ Set.Icc (-(infiniteMagnitude : ℤ)) infiniteMagnitude := by
  rw [isNaN, decide_eq_false_iff_not] at h
  rw [Set.mem_Icc, key]
  split <;> omega

/-- What a number denotes is what its key stands for. -/
theorem exact_of_not_isNaN (h : x.isNaN = false) : x.exact = (keyLevel x.key : ExactValue) := by
  have hkey := key_mem_Icc h
  rw [Set.mem_Icc] at hkey
  rw [exact, h, if_neg Bool.false_ne_true]
  by_cases hfinite : x.isFinite = true
  · rw [if_pos hfinite]
    rw [isFinite, decide_eq_true_eq] at hfinite
    have habs : -(infiniteMagnitude : ℤ) < x.key ∧ x.key < infiniteMagnitude := by
      rw [key]
      split <;> omega
    rw [keyLevel, if_neg (by omega), if_neg (by omega), keyValue_key]
    rfl
  · rw [if_neg hfinite]
    rw [isFinite, decide_eq_true_eq] at hfinite
    rw [isNaN, decide_eq_false_iff_not] at h
    have hinfinite : (0 : ℤ) < infiniteMagnitude := by decide
    cases hs : x.isNegative with
    | true =>
      have hbottom : x.key = -(infiniteMagnitude : ℤ) := by
        rw [key, hs, if_pos rfl]
        omega
      have hlevel : keyLevel x.key = ⊥ := by
        rw [keyLevel, hbottom, if_neg (by omega), if_pos le_rfl]
      rw [hlevel, if_pos rfl]
    | false =>
      have htop : x.key = (infiniteMagnitude : ℤ) := by
        rw [key, hs, if_neg Bool.false_ne_true]
        omega
      have hlevel : keyLevel x.key = ⊤ := by rw [keyLevel, htop, if_pos le_rfl]
      rw [hlevel, if_neg Bool.false_ne_true]

/-- **Floating-point numbers are compared by what they denote.** -/
theorem compare_eq (x y : Binary64) : compare x y = cmp x.exact y.exact := by
  have hcoe : ∀ a : WithTop (WithBot ℚ), (a : ExactValue) < ⊤ := WithTop.coe_lt_top
  rw [compare]
  cases hx : x.isNaN with
  | true =>
    rw [exact_of_isNaN hx]
    cases hy : y.isNaN with
    | true =>
      rw [exact_of_isNaN hy, cmp_self_eq_eq]
    | false =>
      rw [exact_of_not_isNaN hy]
      exact ((cmp_eq_gt_iff _ _).2 (hcoe _)).symm
  | false =>
    rw [exact_of_not_isNaN hx]
    cases hy : y.isNaN with
    | true =>
      rw [exact_of_isNaN hy]
      exact ((cmp_eq_lt_iff _ _).2 (hcoe _)).symm
    | false =>
      have hlevel : cmp (keyLevel x.key : ExactValue) (keyLevel y.key) =
          cmp (keyLevel x.key) (keyLevel y.key) :=
        WithTop.coe_strictMono.cmp_map_eq _ _
      rw [exact_of_not_isNaN hy, hlevel,
        keyLevel_strictMonoOn.cmp_map_eq (key_mem_Icc hx) (key_mem_Icc hy), cmp_eq_compare]

end Binary64

end Enablement
