import Enablement.Proofs.Number.Integral
/-!
# Numbers — comparison goes by exact values

Integers and floating-point numbers are compared by what they denote (`Number.compare_eq`). An
integer is rounded for a comparison only where the other number is smaller than `2 ^ 53` and no
integer, so rounding carries nothing across it. The order of numbers is that of a linear order then:
it is total and transitive, and numbers are equal when they denote the same.
-/

namespace Enablement

namespace Binary64

variable {x y : Binary64} {q : ℚ}

theorem isNaN_of_isFinite (h : x.isFinite = true) : x.isNaN = false := by
  rw [isFinite, decide_eq_true_eq] at h
  rw [isNaN, decide_eq_false_iff_not]
  omega

/-- A number denotes a rational if it is finite. -/
theorem exact_eq_ofRat_iff : x.exact = .ofRat q ↔ x.isFinite = true ∧ x.toRat = q := by
  rw [exact]
  split
  · next hnan =>
    refine iff_of_false (WithTop.top_ne_coe) fun h => ?_
    rw [isNaN_of_isFinite h.1] at hnan
    cases hnan
  · split
    · next hfinite =>
      rw [ExactValue.ofRat_strictMono.injective.eq_iff]
      exact (and_iff_right hfinite).symm
    · next hinfinite =>
      refine iff_of_false (fun h => ?_) fun h => hinfinite h.1
      split at h
      · exact WithBot.bot_ne_coe (WithTop.coe_injective (WithTop.coe_injective h))
      · exact WithTop.top_ne_coe (WithTop.coe_injective h)

theorem exact_of_isFinite (h : x.isFinite = true) : x.exact = .ofRat x.toRat :=
  exact_eq_ofRat_iff.2 ⟨h, rfl⟩

/-- Only the two zeros have one key. -/
theorem eq_of_key_eq (h : x.key = y.key) (hzero : x.key ≠ 0) : x = y := by
  have hx := x.bits.toNat_lt
  have hy := y.bits.toNat_lt
  have hkey : ∀ z : Binary64, z.key =
      if 2 ^ 63 ≤ z.bits.toNat then -((z.bits.toNat % 2 ^ 63 : ℕ) : ℤ)
      else (z.bits.toNat % 2 ^ 63 : ℕ) := fun z => by
    rw [key, isNegative, magnitude]
    simp only [decide_eq_true_eq]
    rfl
  have hbits : x.bits.toNat = y.bits.toNat := by
    rw [hkey, hkey] at h
    rw [hkey] at hzero
    split at h <;> split at h <;> omega
  cases x
  cases y
  exact congrArg mk (UInt64.toNat_inj.1 hbits)

theorem exact_eq_top_iff : x.exact = ⊤ ↔ x.isNaN = true := by
  cases h : x.isNaN with
  | true => exact iff_of_true (exact_of_isNaN h) rfl
  | false =>
    rw [exact_of_not_isNaN h]
    exact iff_of_false WithTop.coe_ne_top Bool.false_ne_true

end Binary64

namespace Number

variable {a b : Number} {n : Int64} {x : Binary64}

/-- What a number denotes. -/
def exact : Number → ExactValue
  | .int n => .ofRat n.toInt
  | .float x => x.exact

/-! ## Integers of 64 bits -/

theorem fitsInt64_iff {i : ℤ} : fitsInt64 i = true ↔ -2 ^ 63 ≤ i ∧ i < 2 ^ 63 := by
  rw [fitsInt64, Bool.and_eq_true, decide_eq_true_eq, decide_eq_true_eq, pow2_eq]
  norm_cast

/-- A number is equal to an integer of 64 bits if it denotes that integer. -/
theorem toInt64?_eq_some_iff : a.toInt64? = some n ↔ a.exact = .ofRat n.toInt := by
  cases a with
  | int m =>
    rw [toInt64?, exact, Option.some.injEq, ExactValue.ofRat_strictMono.injective.eq_iff,
      Int.cast_inj, Int64.toInt_inj]
  | float x =>
    rw [toInt64?, exact, Binary64.exact_eq_ofRat_iff, ← Binary64.toInt?_eq_some_iff,
      Option.map_eq_some_iff]
    constructor
    · rintro ⟨i, hi, rfl⟩
      obtain ⟨hi, hfits⟩ := Option.filter_eq_some_iff.1 hi
      obtain ⟨hlow, hhigh⟩ := fitsInt64_iff.1 hfits
      rw [Int64.toInt_ofInt_of_le hlow hhigh, hi]
    · intro h
      refine ⟨n.toInt, Option.filter_eq_some_iff.2 ⟨h, ?_⟩, Int64.ofInt_toInt n⟩
      exact fitsInt64_iff.2 ⟨n.le_toInt, n.toInt_lt⟩

/-- The canonical form denotes the same. -/
theorem exact_canonical (a : Number) : a.canonical.exact = a.exact := by
  rw [canonical]
  split
  · next h => exact (toInt64?_eq_some_iff.1 h).symm
  · rfl

/-- In canonical form, a floating-point number is no integer of 64 bits. -/
theorem toInt64?_of_canonical (h : a.canonical = .float x) : (Number.float x).toInt64? = none := by
  rw [canonical] at h
  split at h
  · cases h
  · next hnone => rwa [h] at hnone

/-! ## Comparison -/

/-- The keys beyond which numbers are compared without rounding. -/
theorem key_bounds :
    (Binary64.ofInt (pow2 63)).key = 1086 * 2 ^ 52 ∧
      (Binary64.ofInt (-(pow2 63 : ℤ))).key = -(1086 * 2 ^ 52) := by
  decide

theorem keyLevel_bounds :
    (Binary64.keyLevel (1086 * 2 ^ 52) : ExactValue) = ExactValue.ofRat (2 ^ 63) ∧
      (Binary64.keyLevel (-(1086 * 2 ^ 52)) : ExactValue) = ExactValue.ofRat (-2 ^ 63) := by
  have hinfinite : (Binary64.infiniteMagnitude : ℤ) = 2047 * 2 ^ 52 := rfl
  have hpattern : Binary64.patternValue (1086 * 2 ^ 52) = 2 ^ 63 := by
    have h := Binary64.patternValue_normal (e := 1085) (f := 0) (by norm_num)
    norm_num at h ⊢
    exact h
  have hkey : Binary64.keyValue (1086 * 2 ^ 52) = 2 ^ 63 := by
    rw [← hpattern]
    exact Binary64.keyValue_natCast (1086 * 2 ^ 52)
  rw [Binary64.keyLevel, Binary64.keyLevel, if_neg (by omega), if_neg (by omega),
    if_neg (by omega), if_neg (by omega), Binary64.keyValue_neg, hkey]
  exact ⟨rfl, rfl⟩

/-- **An integer and a number that is none are compared by what they denote**, although the integer
is rounded for it. -/
theorem compareIntFloat_eq (n : Int64) (hx : (Number.float x).toInt64? = none) :
    compareIntFloat n x = cmp (ExactValue.ofRat n.toInt) x.exact := by
  have hlow : ExactValue.ofRat (-2 ^ 63) ≤ ExactValue.ofRat n.toInt :=
    ExactValue.ofRat_strictMono.monotone (by exact_mod_cast n.le_toInt)
  have hhigh : ExactValue.ofRat n.toInt < ExactValue.ofRat (2 ^ 63) :=
    ExactValue.ofRat_strictMono (by exact_mod_cast n.toInt_lt)
  have hinfinite : (Binary64.infiniteMagnitude : ℤ) = 2047 * 2 ^ 52 := rfl
  obtain ⟨hkeyUp, hkeyDown⟩ := key_bounds
  obtain ⟨hup, hdown⟩ := keyLevel_bounds
  rw [compareIntFloat, hkeyUp, hkeyDown]
  cases hnan : x.isNaN with
  | true =>
    rw [if_pos rfl, Binary64.exact_of_isNaN hnan]
    exact ((cmp_eq_lt_iff _ _).2 (WithTop.coe_lt_top _)).symm
  | false =>
    have hlevel := Binary64.exact_of_not_isNaN hnan
    have hmono := Binary64.keyLevel_strictMonoOn.monotoneOn
    have hkey := Binary64.key_mem_Icc hnan
    rw [if_neg Bool.false_ne_true]
    by_cases habove : 1086 * 2 ^ 52 ≤ x.key
    · rw [if_pos habove]
      have hle := WithTop.coe_le_coe.2 (hmono (Set.mem_Icc.2 ⟨by omega, by omega⟩) hkey habove)
      rw [hup, ← hlevel] at hle
      exact ((cmp_eq_lt_iff _ _).2 (hhigh.trans_le hle)).symm
    rw [if_neg habove]
    by_cases hbelow : x.key < -(1086 * 2 ^ 52)
    · rw [if_pos hbelow]
      have hlt := WithTop.coe_lt_coe.2 (Binary64.keyLevel_strictMonoOn hkey
        (Set.mem_Icc.2 ⟨by omega, by omega⟩) hbelow)
      rw [hdown, ← hlevel] at hlt
      exact ((cmp_eq_gt_iff _ _).2 (hlt.trans_le hlow)).symm
    rw [if_neg hbelow]
    -- the number is within the range of the integers, so it is finite and has a fraction
    have hfinite : x.isFinite = true := by
      rw [Binary64.isFinite, decide_eq_true_eq]
      rw [Binary64.key] at habove hbelow
      split at habove
      · next hs =>
        rw [if_pos hs] at hbelow
        omega
      · omega
    have hexact := Binary64.exact_of_isFinite hfinite
    have hfraction : ∀ i : ℤ, x.toRat ≠ i := by
      intro i hi
      have hge := WithTop.coe_le_coe.2 (hmono (Set.mem_Icc.2 ⟨by omega, by omega⟩) hkey
        (not_lt.1 hbelow))
      have hlt := WithTop.coe_lt_coe.2 (Binary64.keyLevel_strictMonoOn hkey
        (Set.mem_Icc.2 ⟨by omega, by omega⟩) (not_le.1 habove))
      rw [hdown, ← hlevel, hexact, ExactValue.ofRat_strictMono.le_iff_le, hi] at hge
      rw [hup, ← hlevel, hexact, ExactValue.ofRat_strictMono.lt_iff_lt, hi] at hlt
      have hi63 : (Int64.ofInt i).toInt = i :=
        Int64.toInt_ofInt_of_le (by exact_mod_cast hge) (by exact_mod_cast hlt)
      have hsome : (Number.float x).toInt64? = some (Int64.ofInt i) := by
        rw [toInt64?_eq_some_iff, hi63, ← hi]
        exact hexact
      rw [hsome] at hx
      cases hx
    rw [hexact, ExactValue.ofRat_strictMono.cmp_map_eq,
      ← Binary64.cmp_keyValue_ofInt _ (Binary64.abs_toRat_lt hfraction), ← Binary64.keyValue_key,
      Binary64.keyValue_strictMono.cmp_map_eq, cmp_eq_compare]

/-- **Numbers are compared by what they denote.** -/
theorem compare_eq (a b : Number) : compare a b = cmp a.exact b.exact := by
  rw [compare, ← exact_canonical a, ← exact_canonical b]
  cases ha : a.canonical with
  | int m =>
    cases hb : b.canonical with
    | int n =>
      dsimp only [exact]
      rw [ExactValue.ofRat_strictMono.cmp_map_eq, Int.cast_strictMono.cmp_map_eq, cmp_eq_compare]
    | float y => exact compareIntFloat_eq m (toInt64?_of_canonical hb)
  | float x =>
    cases hb : b.canonical with
    | int n =>
      dsimp only
      rw [compareIntFloat_eq n (toInt64?_of_canonical ha), cmp_swap]
      rfl
    | float y => exact Binary64.compare_eq x y

/-! ## The laws of the order -/

/-- Comparing the other way round gives the reverse, and comparison is transitive. -/
instance : Std.TransCmp compare where
  eq_swap {a b} := by rw [compare_eq, compare_eq, cmp_swap]
  isLE_trans {a b c} hab hbc := by
    rw [compare_eq, Ordering.isLE_iff_ne_gt, cmp_eq_gt_iff, not_lt] at hab hbc ⊢
    exact hab.trans hbc

/-- Numbers are equal when neither comes first. -/
instance : Std.LawfulBEqCmp compare where
  compare_eq_iff_beq {a b} := (beq_iff_eq (a := compare a b) (b := .eq)).symm

/-- Floating-point numbers that denote the same are one if they are no integers of 64 bits, and
numbers at all. -/
theorem eq_of_exact_eq {y : Binary64} (hx : (Number.float x).toInt64? = none)
    (hnan : x.isNaN = false) (h : x.exact = y.exact) : x = y := by
  have hnan' : y.isNaN = false := by
    rw [← Bool.not_eq_true, ← Binary64.exact_eq_top_iff, ← h, Binary64.exact_eq_top_iff, hnan]
    exact Bool.false_ne_true
  rw [Binary64.exact_of_not_isNaN hnan, Binary64.exact_of_not_isNaN hnan'] at h
  refine Binary64.eq_of_key_eq (Binary64.keyLevel_strictMonoOn.injOn (Binary64.key_mem_Icc hnan)
    (Binary64.key_mem_Icc hnan') (WithTop.coe_injective h)) fun hkey => ?_
  -- zero is an integer of 64 bits
  have hzero : (Number.float x).exact = .ofRat (0 : Int64).toInt := by
    have hlevel : Binary64.keyLevel 0 = ((Binary64.keyValue 0 : WithBot ℚ) : WithTop _) := rfl
    have hvalue : Binary64.keyValue 0 = 0 := Binary64.patternValue_zero
    rw [exact, Binary64.exact_of_not_isNaN hnan, hkey, hlevel, hvalue]
    rfl
  rw [toInt64?_eq_some_iff.2 hzero] at hx
  cases hx

/-- Equal numbers denote the same. -/
theorem beq_iff_exact_eq : (a == b) = true ↔ a.exact = b.exact := by
  have h : compare a b = .eq ↔ (a == b) = true := Std.LawfulBEqCmp.compare_eq_iff_beq
  rw [← h, compare_eq, cmp_eq_eq_iff]

end Number

end Enablement
