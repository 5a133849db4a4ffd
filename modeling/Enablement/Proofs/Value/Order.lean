import Enablement.Proofs.Number.Compare
import Enablement.Value.Feed
import Mathlib.Data.List.Forall2
/-!
# Values — the order is total and agrees with equality

Comparing values the other way round gives the reverse, comparison is transitive, and it finds
values equal exactly when they are. Transitivity is carried in a form that says what the outer
comparison gives (`Composes`), since that form goes through comparisons one after the other. Equal
values give the same atoms to a hasher.
-/

namespace Enablement

variable {ab bc ac : Ordering}

/-- Where the first is nowhere the greater, comparing the ends is comparing step by step. -/
def Composes (ab bc ac : Ordering) : Prop :=
  ab.isLE = true → bc.isLE = true → ac = ab.then bc

/-- Comparisons composed one after the other compose. -/
theorem Composes.then {ab' bc' ac' : Ordering} (h : Composes ab bc ac)
    (h' : Composes ab' bc' ac') : Composes (ab.then ab') (bc.then bc') (ac.then ac') := by
  intro hab hbc
  cases ab with
  | gt => cases hab
  | lt =>
    cases bc with
    | gt => cases hbc
    | lt | eq => rw [h rfl rfl]; rfl
  | eq =>
    cases bc with
    | gt => cases hbc
    | lt =>
      rw [h rfl rfl]
      cases ab' with
      | gt => cases hab
      | lt | eq => rfl
    | eq =>
      rw [h rfl rfl]
      exact h' hab hbc

/-- A transitive comparison composes. -/
theorem composes_of_transCmp {α : Type} (cmp : α → α → Ordering) [Std.TransCmp cmp] (a b c : α) :
    Composes (cmp a b) (cmp b c) (cmp a c) := by
  intro hab hbc
  cases h : cmp a b with
  | gt =>
    rw [h] at hab
    cases hab
  | lt =>
    cases h' : cmp b c with
    | gt =>
      rw [h'] at hbc
      cases hbc
    | lt => exact Std.TransCmp.lt_trans h h'
    | eq => exact Std.TransCmp.lt_of_lt_of_eq h h'
  | eq => exact Std.TransCmp.congr_left h

/-- A comparison that composes is transitive. -/
theorem transCmp_of_composes {α : Type} {cmp : α → α → Ordering}
    (hswap : ∀ a b, cmp b a = (cmp a b).swap)
    (h : ∀ a b c, Composes (cmp a b) (cmp b c) (cmp a c)) : Std.TransCmp cmp where
  eq_swap {a b} := hswap b a
  isLE_trans {a b c} hab hbc := by
    rw [h a b c hab hbc]
    cases hab' : cmp a b with
    | gt =>
      rw [hab'] at hab
      cases hab
    | lt => rfl
    | eq => exact hbc

namespace HostRef

theorem compare_swap (a b : HostRef) : compare b a = (compare a b).swap := by
  rw [compare, compare, Ordering.swap_then, ← Std.OrientedCmp.eq_swap, ← Std.OrientedCmp.eq_swap]

instance : Std.TransCmp compare :=
  transCmp_of_composes compare_swap fun a b c =>
    (composes_of_transCmp Ord.compare a.typeName b.typeName c.typeName).then
      (composes_of_transCmp Ord.compare a.id b.id c.id)

instance : Std.LawfulEqCmp compare where
  compare_self {a} := by
    rw [compare, Std.compare_self, Std.compare_self]
    rfl
  eq_of_compare {a b} h := by
    rw [compare, Ordering.then_eq_eq, Std.compare_eq_iff_eq, Std.compare_eq_iff_eq] at h
    cases a
    cases b
    exact congrArg₂ mk h.1 h.2

end HostRef

namespace Number

/-- **Equal numbers give the same atoms.** -/
theorem feed_congr {a b : Number} (h : (a == b) = true) : a.feed = b.feed := by
  have hexact := beq_iff_exact_eq.1 h
  have hint : a.toInt64? = b.toInt64? := by
    ext n
    rw [toInt64?_eq_some_iff, toInt64?_eq_some_iff, hexact]
  rw [feed, feed, canonical, canonical, ← hint]
  cases hnone : a.toInt64? with
  | some n => rfl
  | none =>
    cases a with
    | int n => cases hnone
    | float x =>
      cases b with
      | int n => cases hint.symm.trans hnone
      | float y =>
        dsimp only
        cases hnan : x.isNaN with
        | true =>
          rw [exact, Binary64.exact_of_isNaN hnan] at hexact
          rw [Binary64.exact_eq_top_iff.1 hexact.symm]
          rfl
        | false => rw [← eq_of_exact_eq hnone hnan hexact, hnan]

end Number

namespace Value

variable {a b c : Value} {as bs cs : List Value}

/-! ## Parts -/

/-- Keys and values in turn. -/
def flatten (entries : List (Value × Value)) : List Value :=
  entries.flatMap fun e => [e.1, e.2]

/-- What a value is made of. -/
def parts : Value → List Value
  | .array items => items
  | .set members => members
  | .object entries => flatten entries
  | _ => []

theorem length_flatten (es : List (Value × Value)) : (flatten es).length = 2 * es.length := by
  induction es with
  | nil => rfl
  | cons e es ih =>
    rw [flatten, List.flatMap_cons, ← flatten, List.length_append, ih, List.length_cons]
    simp only [List.length_cons, List.length_nil]
    omega

theorem sizeOf_lt_of_mem_parts (h : a ∈ b.parts) : sizeOf a < sizeOf b := by
  cases b with
  | array items | set items =>
    have hitem : sizeOf a < sizeOf items := List.sizeOf_lt_of_mem h
    simp only [array.sizeOf_spec, set.sizeOf_spec]
    omega
  | object entries =>
    obtain ⟨e, he, ha⟩ := List.mem_flatMap.1 h
    have hentry := List.sizeOf_lt_of_mem he
    have hpart : sizeOf a < sizeOf e := by
      cases e
      simp only [List.mem_cons, List.not_mem_nil, or_false] at ha
      rw [Prod.mk.sizeOf_spec]
      rcases ha with rfl | rfl <;> omega
    rw [object.sizeOf_spec]
    omega
  | _ => cases h

/-- **Induction over the parts.** -/
theorem inductionOn {motive : Value → Prop} (a : Value)
    (step : ∀ a, (∀ b ∈ a.parts, motive b) → motive a) : motive a :=
  step a fun b _ => inductionOn b step
termination_by sizeOf a
decreasing_by exact sizeOf_lt_of_mem_parts (by assumption)

theorem compareEntries_eq (es fs : List (Value × Value)) :
    compareEntries es fs = compareItems (flatten es) (flatten fs) := by
  induction es generalizing fs with
  | nil => cases fs <;> rfl
  | cons e es ih =>
    cases fs with
    | nil => rfl
    | cons f fs =>
      change ((compare e.1 f.1).then (compare e.2 f.2)).then _ = _
      rw [ih, Ordering.then_assoc]
      rfl

theorem sameEntries_eq (es fs : List (Value × Value)) :
    sameEntries es fs = sameItems (flatten es) (flatten fs) := by
  induction es generalizing fs with
  | nil => cases fs <;> rfl
  | cons e es ih =>
    cases fs with
    | nil => rfl
    | cons f fs =>
      change (same e.1 f.1 && same e.2 f.2 && _) = _
      rw [ih, Bool.and_assoc]
      rfl

theorem feedEntries_eq (es : List (Value × Value)) : feedEntries es = feedItems (flatten es) := by
  induction es with
  | nil => rfl
  | cons e es ih =>
    change feed e.1 ++ (feed e.2 ++ _) = _
    rw [ih]
    rfl

/-! ## Kinds -/

/-- Two values of one kind. -/
inductive SameKind : Value → Value → Prop
  | null : SameKind .null .null
  | bool (x y : Bool) : SameKind (.bool x) (.bool y)
  | number (x y : Number) : SameKind (.number x) (.number y)
  | string (x y : String) : SameKind (.string x) (.string y)
  | array (xs ys : List Value) : SameKind (.array xs) (.array ys)
  | set (xs ys : List Value) : SameKind (.set xs) (.set ys)
  | object (xs ys : List (Value × Value)) : SameKind (.object xs) (.object ys)
  | type (x y : String) : SameKind (.type x) (.type y)
  | host (x y : HostRef) : SameKind (.host x) (.host y)
  | undefined : SameKind .undefined .undefined

theorem sameKind_of_rank_eq (h : a.rank = b.rank) : SameKind a b := by
  cases a <;> cases b <;> first | constructor | cases h

/-- Values of different kinds are compared by kind. -/
theorem compare_of_rank_ne (h : a.rank ≠ b.rank) : compare a b = Ord.compare a.rank b.rank := by
  cases a <;> cases b <;> first | rfl | exact absurd rfl h

theorem compare_of_rank_lt (h : a.rank < b.rank) : compare a b = .lt := by
  rw [compare_of_rank_ne h.ne, Nat.compare_eq_lt]
  exact h

theorem rank_le_of_isLE_compare (h : (compare a b).isLE = true) : a.rank ≤ b.rank := by
  by_contra hgt
  rw [compare_of_rank_ne (Nat.ne_of_gt (not_le.1 hgt)), Nat.compare_eq_gt.2 (not_le.1 hgt)] at h
  cases h

/-- Equal values are of one kind. -/
theorem sameKind_of_same (h : same a b = true) : SameKind a b := by
  cases a <;> cases b <;> first | constructor | cases h

/-! ## The laws of the order -/

theorem compareItems_swap (h : ∀ a ∈ as, ∀ b, compare b a = (compare a b).swap) (bs : List Value) :
    compareItems bs as = (compareItems as bs).swap := by
  induction as generalizing bs with
  | nil => cases bs <;> rfl
  | cons a as ih =>
    cases bs with
    | nil => rfl
    | cons b bs =>
      rw [compareItems, compareItems, Ordering.swap_then, h a List.mem_cons_self b,
        ih (fun x hx => h x (List.mem_cons_of_mem a hx)) bs]

/-- **Comparing the other way round gives the reverse.** -/
theorem compare_swap (a b : Value) : compare b a = (compare a b).swap := by
  induction a using inductionOn generalizing b with
  | step a ih =>
  by_cases hrank : a.rank = b.rank
  · cases sameKind_of_rank_eq hrank with
    | null | undefined => rfl
    | bool x y => exact (Std.OrientedCmp.eq_swap : Ord.compare y x = (Ord.compare x y).swap)
    | number x y =>
      exact (Std.OrientedCmp.eq_swap : Number.compare y x = (Number.compare x y).swap)
    | string x y | type x y =>
      exact (Std.OrientedCmp.eq_swap : Ord.compare y x = (Ord.compare x y).swap)
    | array xs ys | set xs ys => exact compareItems_swap ih ys
    | object xs ys =>
      change compareEntries ys xs = (compareEntries xs ys).swap
      rw [compareEntries_eq, compareEntries_eq]
      exact compareItems_swap ih (flatten ys)
    | host x y => exact HostRef.compare_swap x y
  · rw [compare_of_rank_ne hrank, compare_of_rank_ne (Ne.symm hrank)]
    exact Std.OrientedCmp.eq_swap

theorem compareItems_composes
    (h : ∀ a ∈ as, ∀ b c, Composes (compare a b) (compare b c) (compare a c))
    (bs cs : List Value) :
    Composes (compareItems as bs) (compareItems bs cs) (compareItems as cs) := by
  induction as generalizing bs cs with
  | nil =>
    intro _ hbc
    cases bs with
    | nil => rfl
    | cons b bs =>
      cases cs with
      | nil => cases hbc
      | cons c cs => rfl
  | cons a as ih =>
    cases bs with
    | nil => exact fun hab => nomatch hab
    | cons b bs =>
      cases cs with
      | nil => exact fun _ hbc => nomatch hbc
      | cons c cs =>
        exact (h a List.mem_cons_self b c).then
          (ih (fun x hx => h x (List.mem_cons_of_mem a hx)) bs cs)

/-- **Comparison is transitive**: it gives for the ends what the steps give together. -/
theorem compare_composes (a b c : Value) :
    Composes (compare a b) (compare b c) (compare a c) := by
  induction a using inductionOn generalizing b c with
  | step a ih =>
  intro hab hbc
  have hrank := rank_le_of_isLE_compare hab
  have hrank' := rank_le_of_isLE_compare hbc
  rcases hrank.lt_or_eq with hlt | heq
  · rw [compare_of_rank_lt (hlt.trans_le hrank'), compare_of_rank_lt hlt]
    rfl
  rcases hrank'.lt_or_eq with hlt' | heq'
  · rw [compare_of_rank_lt (hrank.trans_lt hlt'), compare_of_rank_lt hlt']
    cases h : compare a b with
    | gt =>
      rw [h] at hab
      cases hab
    | lt | eq => rfl
  -- all three are of one kind
  revert hab hbc
  cases sameKind_of_rank_eq heq with
  | null =>
    cases sameKind_of_rank_eq heq' with
    | null => exact fun _ _ => rfl
  | undefined =>
    cases sameKind_of_rank_eq heq' with
    | undefined => exact fun _ _ => rfl
  | bool x y =>
    cases sameKind_of_rank_eq heq' with
    | bool _ z => exact composes_of_transCmp Ord.compare x y z
  | number x y =>
    cases sameKind_of_rank_eq heq' with
    | number _ z => exact composes_of_transCmp Number.compare x y z
  | string x y =>
    cases sameKind_of_rank_eq heq' with
    | string _ z => exact composes_of_transCmp Ord.compare x y z
  | type x y =>
    cases sameKind_of_rank_eq heq' with
    | type _ z => exact composes_of_transCmp Ord.compare x y z
  | host x y =>
    cases sameKind_of_rank_eq heq' with
    | host _ z => exact composes_of_transCmp HostRef.compare x y z
  | array xs ys =>
    cases sameKind_of_rank_eq heq' with
    | array _ zs => exact compareItems_composes ih ys zs
  | set xs ys =>
    cases sameKind_of_rank_eq heq' with
    | set _ zs => exact compareItems_composes ih ys zs
  | object xs ys =>
    cases sameKind_of_rank_eq heq' with
    | object _ zs =>
      change Composes (compareEntries xs ys) (compareEntries ys zs) (compareEntries xs zs)
      rw [compareEntries_eq, compareEntries_eq, compareEntries_eq]
      exact compareItems_composes ih (flatten ys) (flatten zs)

instance : Std.TransCmp compare := transCmp_of_composes compare_swap compare_composes

theorem compare_self (a : Value) : compare a a = .eq := Std.ReflCmp.compare_self

/-! ## Equality -/

theorem compareItems_eq_iff (h : ∀ a ∈ as, ∀ b, compare a b = .eq ↔ same a b = true)
    (bs : List Value) : compareItems as bs = .eq ↔ sameItems as bs = true := by
  induction as generalizing bs with
  | nil => cases bs <;> simp [compareItems, sameItems]
  | cons a as ih =>
    cases bs with
    | nil => simp [compareItems, sameItems]
    | cons b bs =>
      rw [compareItems, sameItems, Ordering.then_eq_eq, Bool.and_eq_true,
        h a List.mem_cons_self b, ih (fun x hx => h x (List.mem_cons_of_mem a hx)) bs]

/-- **Comparison finds equal what is equal, and nothing else.** -/
theorem compare_eq_iff_same (a b : Value) : compare a b = .eq ↔ same a b = true := by
  induction a using inductionOn generalizing b with
  | step a ih =>
  by_cases hrank : a.rank = b.rank
  · cases sameKind_of_rank_eq hrank with
    | null | undefined => exact iff_of_true rfl rfl
    | number x y =>
      exact (Std.LawfulBEqCmp.compare_eq_iff_beq : Number.compare x y = .eq ↔ (x == y) = true)
    | bool x y | string x y | type x y => exact Std.compare_eq_iff_eq.trans beq_iff_eq.symm
    | array xs ys | set xs ys => exact compareItems_eq_iff ih ys
    | object xs ys =>
      change compareEntries xs ys = .eq ↔ sameEntries xs ys = true
      rw [compareEntries_eq, sameEntries_eq]
      exact compareItems_eq_iff ih (flatten ys)
    | host x y =>
      exact (Std.LawfulEqCmp.compare_eq_iff_eq : HostRef.compare x y = .eq ↔ x = y).trans
        beq_iff_eq.symm
  · refine iff_of_false (fun h => hrank ?_) fun h => hrank ?_
    · rwa [compare_of_rank_ne hrank, Std.compare_eq_iff_eq] at h
    · cases sameKind_of_same h <;> rfl

instance : Std.LawfulBEqCmp compare where
  compare_eq_iff_beq {a b} := compare_eq_iff_same a b

instance : EquivBEq Value := @Std.LawfulBEqCmp.equivBEq _ _ compare _ _

/-- Equal lists are equal place by place. -/
theorem sameItems_iff : sameItems as bs = true ↔
    List.Forall₂ (fun a b : Value => (a == b) = true) as bs := by
  induction as generalizing bs with
  | nil => cases bs <;> simp [sameItems]
  | cons a as ih =>
    cases bs with
    | nil => simp [sameItems]
    | cons b bs =>
      rw [sameItems, Bool.and_eq_true, ih, List.forall₂_cons]
      exact Iff.rfl

/-! ## Hashing -/

theorem feedItems_congr (h : ∀ a ∈ as, ∀ b, same a b = true → feed a = feed b)
    (hsame : sameItems as bs = true) : as.length = bs.length ∧ feedItems as = feedItems bs := by
  induction as generalizing bs with
  | nil =>
    cases bs with
    | nil => exact ⟨rfl, rfl⟩
    | cons b bs => cases hsame
  | cons a as ih =>
    cases bs with
    | nil => cases hsame
    | cons b bs =>
      obtain ⟨hhead, htail⟩ := Bool.and_eq_true_iff.1 hsame
      obtain ⟨hlength, hfeed⟩ := ih (fun x hx => h x (List.mem_cons_of_mem a hx)) htail
      rw [feedItems, feedItems, h a List.mem_cons_self b hhead, hfeed, List.length_cons, hlength]
      exact ⟨rfl, rfl⟩

/-- **Equal values give the same atoms to a hasher.** -/
theorem feed_congr (h : same a b = true) : feed a = feed b := by
  induction a using inductionOn generalizing b with
  | step a ih =>
  have hparts {bs : List Value} (hsame : sameItems a.parts bs = true) :=
    feedItems_congr (fun x hx y hxy => ih x hx hxy) hsame
  cases sameKind_of_same h with
  | null | undefined => rfl
  | number x y => exact congrArg (Atom.tag 2 :: ·) (Number.feed_congr h)
  | bool x y | string x y | type x y | host x y => rw [(beq_iff_eq.1 h : x = y)]
  | array xs ys | set xs ys =>
    obtain ⟨hlength, hfeed⟩ : xs.length = ys.length ∧ feedItems xs = feedItems ys := hparts h
    rw [feed, feed, hlength, hfeed]
  | object xs ys =>
    change sameEntries xs ys = true at h
    rw [sameEntries_eq] at h
    obtain ⟨hlength, hfeed⟩ :
      (flatten xs).length = (flatten ys).length ∧ feedItems (flatten xs) = feedItems (flatten ys) :=
        hparts h
    rw [length_flatten, length_flatten] at hlength
    have hsize : xs.length = ys.length := by omega
    rw [feed, feed, feedEntries_eq, feedEntries_eq, hsize, hfeed]

end Value

end Enablement
