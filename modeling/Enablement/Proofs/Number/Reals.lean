import Enablement.Proofs.Number.Compare
import Enablement.Proofs.Number.Rounding
import Mathlib.Data.EReal.Basic
/-!
# Numbers — comparison goes by real values

Integers and floating-point numbers stand for real numbers or for one of the two infinities, and are
ordered as these are; what is not a number comes last and is equal to itself
(`Number.compare_by_real_value`). A number is an integer of 64 bits exactly when its real value is
one. Integers are rounded where they meet a fraction, to the nearest number, but never so that it
shows.
-/

namespace Enablement

/-- A rational or an infinity as a real one. -/
noncomputable def realLevel : WithTop (WithBot ℚ) → EReal
  | none => ⊤
  | some none => ⊥
  | some (some q) => ((q : ℝ) : EReal)

theorem realLevel_strictMono : StrictMono realLevel := by
  intro l m hlm
  cases l using WithTop.recTopCoe with
  | top => exact absurd hlm not_top_lt
  | coe l =>
  cases m using WithTop.recTopCoe with
  | top =>
    cases l using WithBot.recBotCoe with
    | bot => exact bot_lt_top
    | coe q => exact EReal.coe_lt_top _
  | coe m =>
  have hlm := WithTop.coe_lt_coe.1 hlm
  cases m using WithBot.recBotCoe with
  | bot => exact absurd hlm not_lt_bot
  | coe r =>
  cases l using WithBot.recBotCoe with
  | bot => exact EReal.bot_lt_coe _
  | coe q =>
    have hqr := WithBot.coe_lt_coe.1 hlm
    exact EReal.coe_lt_coe_iff.2 (Rat.cast_lt.2 hqr)

namespace Number

variable {a b : Number} {i : ℤ}

/-- Whether it is not a number. -/
def isNaN : Number → Bool
  | .int _ => false
  | .float x => x.isNaN

/-- The real value of a number, or the infinity that it is. -/
noncomputable def toEReal : Number → EReal
  | .int n => ((n.toInt : ℝ) : EReal)
  | .float x =>
    if x.isFinite then ((x.toRat : ℝ) : EReal) else if x.isNegative then ⊥ else ⊤

/-- What a number denotes is its real value, unless it is none. -/
theorem exists_level (h : a.isNaN = false) :
    ∃ l : WithTop (WithBot ℚ), a.exact = (l : ExactValue) ∧ a.toEReal = realLevel l := by
  cases a with
  | int n =>
    refine ⟨((n.toInt : ℚ) : WithBot ℚ), rfl, ?_⟩
    show ((n.toInt : ℝ) : EReal) = (((n.toInt : ℚ) : ℝ) : EReal)
    rw [Rat.cast_intCast]
  | float x =>
    have hnan : x.isNaN = false := h
    simp only [exact, toEReal, Binary64.exact, hnan, Bool.false_eq_true, if_false]
    split
    · exact ⟨((x.toRat : ℚ) : WithBot ℚ), rfl, rfl⟩
    · split
      · exact ⟨⊥, rfl, rfl⟩
      · exact ⟨⊤, rfl, rfl⟩

theorem exact_eq_top_iff : a.exact = ⊤ ↔ a.isNaN = true := by
  cases a with
  | int n => exact iff_of_false WithTop.coe_ne_top Bool.false_ne_true
  | float x => exact Binary64.exact_eq_top_iff

/-- Numbers are ordered by their real values. -/
theorem compare_eq_cmp_toEReal (ha : a.isNaN = false) (hb : b.isNaN = false) :
    compare a b = cmp a.toEReal b.toEReal := by
  obtain ⟨l, hl, hreal⟩ := exists_level ha
  obtain ⟨m, hm, hreal'⟩ := exists_level hb
  have hcoe : cmp (l : ExactValue) (m : ExactValue) = cmp l m :=
    WithTop.coe_strictMono.cmp_map_eq l m
  rw [compare_eq, hl, hm, hcoe, hreal, hreal', realLevel_strictMono.cmp_map_eq]

/-- What is not a number comes after every number. -/
theorem compare_of_isNaN (ha : a.isNaN = true) (hb : b.isNaN = false) : compare a b = .gt := by
  obtain ⟨m, hm, -⟩ := exists_level hb
  rw [compare_eq, exact_eq_top_iff.2 ha, hm]
  exact (cmp_eq_gt_iff _ _).2 (WithTop.coe_lt_top m)

/-- A number denotes an integer if that is its real value. -/
theorem exact_eq_intCast_iff :
    a.exact = .ofRat i ↔ a.isNaN = false ∧ a.toEReal = ((i : ℝ) : EReal) := by
  have hint : realLevel ((i : ℚ) : WithBot ℚ) = ((i : ℝ) : EReal) := by
    show (((i : ℚ) : ℝ) : EReal) = ((i : ℝ) : EReal)
    rw [Rat.cast_intCast]
  cases hnan : a.isNaN with
  | true =>
    rw [exact_eq_top_iff.2 hnan]
    exact iff_of_false WithTop.top_ne_coe fun h => Bool.noConfusion h.1
  | false =>
    obtain ⟨l, hl, hreal⟩ := exists_level hnan
    rw [hl, hreal, ← hint, realLevel_strictMono.injective.eq_iff]
    exact ⟨fun h => ⟨rfl, WithTop.coe_injective h⟩, fun h => congrArg _ h.2⟩

/-- A number is read as an integer of 64 bits if that is its real value. -/
theorem map_toInt_toInt64?_eq_some_iff :
    a.toInt64?.map Int64.toInt = some i ↔
      (a.isNaN = false ∧ a.toEReal = ((i : ℝ) : EReal)) ∧ -2 ^ 63 ≤ i ∧ i < 2 ^ 63 := by
  rw [Option.map_eq_some_iff, ← exact_eq_intCast_iff]
  constructor
  · rintro ⟨n, hn, rfl⟩
    exact ⟨toInt64?_eq_some_iff.1 hn, n.le_toInt, n.toInt_lt⟩
  · rintro ⟨hexact, hlow, hhigh⟩
    have htoInt : (Int64.ofInt i).toInt = i := Int64.toInt_ofInt_of_le hlow hhigh
    exact ⟨Int64.ofInt i, toInt64?_eq_some_iff.2 (by rw [htoInt, hexact]), htoInt⟩

/-- **Numbers are compared exactly.** Two numbers are ordered as their real values are, the
infinities below and above all others. What is not a number is equal to itself in every form, and
greater than everything else. A number is read as the integer of 64 bits that is its real value, if
there is one. The rounding of integers, which comparison makes use of, is to the nearest
floating-point number, half-way to the even one; it decides nothing. -/
theorem compare_by_real_value (a b : Number) :
    (a.isNaN = false → b.isNaN = false → compare a b = cmp a.toEReal b.toEReal) ∧
    (a.isNaN = true → b.isNaN = true → compare a b = .eq) ∧
    (a.isNaN = true → b.isNaN = false → compare a b = .gt ∧ compare b a = .lt) ∧
    (∀ i : ℤ, a.toInt64?.map Int64.toInt = some i ↔
      (a.isNaN = false ∧ a.toEReal = ((i : ℝ) : EReal)) ∧ -2 ^ 63 ≤ i ∧ i < 2 ^ 63) ∧
    ∀ n : Int64, Binary64.NearestEven n.toInt (Binary64.ofInt n.toInt) := by
  refine ⟨compare_eq_cmp_toEReal, fun ha hb => ?_, fun ha hb => ?_,
    fun i => map_toInt_toInt64?_eq_some_iff, fun n => Binary64.nearestEven_ofInt ?_⟩
  · rw [compare_eq, exact_eq_top_iff.2 ha, exact_eq_top_iff.2 hb, cmp_self_eq_eq]
  · have hgt := compare_of_isNaN ha hb
    have hswap : compare b a = (compare a b).swap := Std.OrientedCmp.eq_swap
    exact ⟨hgt, by rw [hswap, hgt, Ordering.swap_gt]⟩
  · have hlow := n.le_toInt
    have hhigh := n.toInt_lt
    omega

/-- The integer after `2 ^ 53` is rounded to `2 ^ 53`, and yet it is greater. What is not a number
is greater still, and one sign or another makes no difference. -/
theorem compare_by_real_value_rounded :
    let n : Int64 := 9007199254740993
    let x : Binary64 := ⟨0x4340000000000000⟩
    let nan : Binary64 := ⟨0x7ff8000000000000⟩
    let negative : Binary64 := ⟨0xfff8000000000000⟩
    Binary64.ofInt n.toInt = x ∧ compare (.int n) (.float x) = .gt ∧
      compare (.float nan) (.int n) = .gt ∧ compare (.float nan) (.float negative) = .eq := by
  intro n x nan negative
  obtain ⟨hcompare, -⟩ := compare_by_real_value (.int n) (.float x)
  obtain ⟨-, -, hgreatest, -⟩ := compare_by_real_value (.float nan) (.int n)
  obtain ⟨-, hsame, -⟩ := compare_by_real_value (.float nan) (.float negative)
  have hrat : x.toRat = 9007199254740992 := by
    have hsign : x.isNegative = false := by decide
    have hsignificand : x.significand = 4503599627370496 := by decide
    have hexponent : x.exponent = 1 := by decide
    rw [Binary64.toRat, hsign, hsignificand, hexponent]
    norm_num
  have hreal : (Number.float x).toEReal = ((x.toRat : ℝ) : EReal) := by
    have hfinite : x.isFinite = true := by decide
    rw [toEReal, if_pos hfinite]
  have hint : (Number.int n).toEReal = ((9007199254740993 : ℝ) : EReal) := by
    have hn : n.toInt = 9007199254740993 := by decide
    rw [toEReal, hn]
    norm_num
  have hgreater : compare (.int n) (.float x) = .gt := by
    rw [hcompare rfl (by decide), cmp_eq_gt_iff, hreal, hint, hrat, EReal.coe_lt_coe_iff]
    norm_num
  obtain ⟨habove, -⟩ := hgreatest (by decide) rfl
  exact ⟨by decide, hgreater, habove, hsame (by decide) (by decide)⟩

end Number

end Enablement
