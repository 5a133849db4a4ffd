import Enablement.Proofs.Registry.Hierarchy
import Mathlib.Algebra.Ring.Nat
/-!
# Platforms — the search for a supertype

The search takes the waiting types one after another, compares each with the goal, and lets the
supertypes of a type that is new to it wait behind the others. `Course` tells how such a search
goes, with no bound on its steps. A step either gives up a waiting type or trades it for the
supertypes that were owed on its account, so no search takes more steps than types wait and are owed
(`leadsTo_course`), on hierarchies with cycles too. What the search has put behind it leads nowhere
but to what it has seen or what waits (`Frontier`), so it answers whether the goal can be reached
(`isSubtype_iff`).
-/

namespace Enablement

open Relation

namespace Platform

variable {p : Platform} {goal t super : String} {waiting : List String} {seen : NameSet}
  {answer : Bool} {n : ℕ}

/-! ## How a search goes -/

/-- A search takes so many steps from the waiting types, with some types already seen, and ends with
an answer. -/
inductive Course (p : Platform) (goal : String) :
    (steps : ℕ) → (waiting : List String) → (seen : NameSet) → (answer : Bool) → Prop
  /-- Nothing waits any more. -/
  | exhausted (seen : NameSet) : Course p goal 0 [] seen false
  /-- The goal is next. -/
  | found (waiting : List String) (seen : NameSet) : Course p goal 1 (goal :: waiting) seen true
  /-- A type is next that has been seen before. -/
  | again {t : String} {waiting : List String} {seen : NameSet} {n : ℕ} {answer : Bool}
    (other : t ≠ goal) (known : seen.contains t = true)
    (rest : Course p goal n waiting seen answer) :
    Course p goal (n + 1) (t :: waiting) seen answer
  /-- A new type is next, and its supertypes wait from now on. -/
  | fresh {t : String} {waiting : List String} {seen : NameSet} {n : ℕ} {answer : Bool}
    (other : t ≠ goal) (unknown : seen.contains t = false)
    (rest : Course p goal n (waiting ++ p.superTypes t) (seen.insert t) answer) :
    Course p goal (n + 1) (t :: waiting) seen answer

/-! ## It comes to an end -/

/-- How many supertypes the entries of types that have not been seen list. -/
def owedIn (seen : NameSet) (entries : List (String × List String)) : ℕ :=
  ((entries.filter fun e => !seen.contains e.1).map fun e => e.2.length).sum

/-- How many supertypes are still to come, repeated ones counted each time. -/
def owed (p : Platform) (seen : NameSet) : ℕ := owedIn seen p.types.entries

theorem owedIn_cons (seen : NameSet) (e : String × List String)
    (entries : List (String × List String)) :
    owedIn seen (e :: entries) =
      (if seen.contains e.1 then 0 else e.2.length) + owedIn seen entries := by
  cases h : seen.contains e.1 <;> simp [owedIn, h]

/-- Seeing a type for the first time settles what its entry lists. -/
theorem owedIn_insert (hnew : seen.contains t = false) {entries : List (String × List String)}
    (hsorted : entries.Pairwise fun a b => a.1 < b.1) :
    owedIn (seen.insert t) entries + ((NameMap.findEntry t entries).getD []).length =
      owedIn seen entries := by
  induction entries with
  | nil => rfl
  | cons e entries ih =>
    obtain ⟨k, supers⟩ := e
    obtain ⟨hfirst, hrest⟩ := List.pairwise_cons.1 hsorted
    have hih := ih hrest
    rw [owedIn_cons, owedIn_cons, NameSet.contains_insert, NameMap.findEntry]
    by_cases hk : t = k
    · subst hk
      -- the entry of the type is this one, and no other
      have hnone : NameMap.findEntry t entries = none := NameMap.findEntry_eq_none_of_lt hfirst
      rw [hnone, Option.getD_none, List.length_nil] at hih
      simp only [BEq.rfl, Bool.true_or, if_true, hnew, Bool.false_eq_true, if_false,
        Option.getD_some]
      omega
    · have hne : (k == t) = false := beq_eq_false_iff_ne.2 (Ne.symm hk)
      rw [hne, Bool.false_or, if_neg hk]
      omega

theorem owed_insert (hnew : seen.contains t = false) :
    p.owed (seen.insert t) + (p.superTypes t).length = p.owed seen :=
  owedIn_insert hnew p.types.sorted

/-- At first, all declared supertypes are still to come. -/
theorem searchSteps_eq (p : Platform) : p.searchSteps = p.owed .empty + 1 := by
  have hfold : ∀ l : List ℕ, l.foldr (· + ·) 1 = l.sum + 1 := by
    intro l
    induction l with
    | nil => rfl
    | cons a l ih =>
      rw [List.foldr_cons, List.sum_cons, ih]
      omega
  have hall : (p.types.entries.filter fun e => !NameSet.empty.contains e.1) = p.types.entries :=
    List.filter_eq_self.2 fun e _ => rfl
  rw [searchSteps, hfold, owed, owedIn, hall]

/-- **A search comes to an end by itself**, in as many steps as types wait and are still to come at
most. -/
theorem leadsTo_course (goal : String) (steps : ℕ) (waiting : List String) (seen : NameSet)
    (hsteps : waiting.length + p.owed seen ≤ steps) :
    ∃ n ≤ waiting.length + p.owed seen,
      p.Course goal n waiting seen (p.leadsTo goal steps waiting seen) := by
  induction steps generalizing waiting seen with
  | zero =>
    have hnil : waiting = [] := List.eq_nil_of_length_eq_zero (by omega)
    subst hnil
    exact ⟨0, Nat.zero_le _, .exhausted seen⟩
  | succ steps ih =>
    cases waiting with
    | nil => exact ⟨0, Nat.zero_le _, .exhausted seen⟩
    | cons t waiting =>
      rw [List.length_cons] at hsteps ⊢
      by_cases hgoal : t = goal
      · subst hgoal
        rw [leadsTo, if_pos rfl]
        exact ⟨1, by omega, .found waiting seen⟩
      · rw [leadsTo, if_neg hgoal]
        cases hseen : seen.contains t with
        | true =>
          obtain ⟨n, hn, hrest⟩ := ih waiting seen (by omega)
          exact ⟨n + 1, by omega, .again hgoal hseen hrest⟩
        | false =>
          -- one type fewer waits, and what comes in its place was owed before
          have howed := p.owed_insert hseen
          have hlength : (waiting ++ p.superTypes t).length = waiting.length + _ :=
            List.length_append
          obtain ⟨n, hn, hrest⟩ := ih (waiting ++ p.superTypes t) (seen.insert t) (by omega)
          exact ⟨n + 1, by omega, .fresh hgoal hseen hrest⟩

/-! ## What it answers -/

/-- The goal has not been seen, and the types that have been lead to others of them or to waiting
ones. -/
structure Frontier (p : Platform) (goal : String) (waiting : List String) (seen : NameSet) :
    Prop where
  missed : seen.contains goal = false
  closed : ∀ t, seen.contains t = true → ∀ super, p.Inherits t super →
    seen.contains super = true ∨ super ∈ waiting

theorem frontier_empty (p : Platform) (goal : String) (waiting : List String) :
    p.Frontier goal waiting .empty :=
  ⟨rfl, fun _ h => nomatch h⟩

/-- What has been seen or waits remains so when a type that has been seen is passed over. -/
theorem seen_or_waiting_again (known : seen.contains t = true)
    (h : seen.contains super = true ∨ super ∈ t :: waiting) :
    seen.contains super = true ∨ super ∈ waiting := by
  obtain hseen | hwaiting := h
  · exact .inl hseen
  · obtain rfl | hwaiting := List.mem_cons.1 hwaiting
    · exact .inl known
    · exact .inr hwaiting

/-- And when a new type has been seen, and others wait behind. -/
theorem seen_or_waiting_fresh {others : List String}
    (h : seen.contains super = true ∨ super ∈ t :: waiting) :
    (seen.insert t).contains super = true ∨ super ∈ waiting ++ others := by
  rw [NameSet.contains_insert, Bool.or_eq_true, beq_iff_eq, List.mem_append]
  obtain hseen | hwaiting := h
  · exact .inl (.inr hseen)
  · obtain rfl | hwaiting := List.mem_cons.1 hwaiting
    · exact .inl (.inl rfl)
    · exact .inr (.inl hwaiting)

/-- Passing over a type that has been seen keeps the frontier. -/
theorem Frontier.again (h : p.Frontier goal (t :: waiting) seen) (known : seen.contains t = true) :
    p.Frontier goal waiting seen := by
  refine ⟨h.missed, fun t' ht' super hsuper => ?_⟩
  exact seen_or_waiting_again known (h.closed t' ht' super hsuper)

/-- So does moving a new type behind it. -/
theorem Frontier.fresh (h : p.Frontier goal (t :: waiting) seen) (other : t ≠ goal) :
    p.Frontier goal (waiting ++ p.superTypes t) (seen.insert t) := by
  constructor
  · rw [NameSet.contains_insert, h.missed, Bool.or_false]
    exact beq_eq_false_iff_ne.2 (Ne.symm other)
  · intro t' ht' super hsuper
    rw [NameSet.contains_insert, Bool.or_eq_true, beq_iff_eq] at ht'
    obtain rfl | hseen := ht'
    · exact .inr (List.mem_append_right _ hsuper)
    · exact seen_or_waiting_fresh (h.closed t' hseen super hsuper)

/-- With nothing waiting, what has been seen leads to nothing else. -/
theorem Frontier.not_reached (h : p.Frontier goal [] seen) (ht : seen.contains t = true) :
    ¬ ReflTransGen p.Inherits t goal := by
  have hseen : ∀ s, ReflTransGen p.Inherits t s → seen.contains s = true := by
    intro s hreach
    induction hreach with
    | refl => exact ht
    | tail _ hstep ih => exact (h.closed _ ih _ hstep).resolve_right List.not_mem_nil
  intro hreach
  have hgoal := hseen goal hreach
  rw [h.missed] at hgoal
  cases hgoal

/-- A search that ends with yes has come to the goal from a type that waited. -/
theorem Course.reached (h : p.Course goal n waiting seen answer) (hyes : answer = true) :
    ∃ t ∈ waiting, ReflTransGen p.Inherits t goal := by
  induction h with
  | exhausted => cases hyes
  | found waiting seen => exact ⟨goal, List.mem_cons_self, .refl⟩
  | again _ _ _ ih =>
    obtain ⟨t, ht, hreach⟩ := ih hyes
    exact ⟨t, List.mem_cons_of_mem _ ht, hreach⟩
  | @fresh t waiting _ _ _ _ _ _ ih =>
    obtain ⟨s, hs, hreach⟩ := ih hyes
    obtain hs | hs := List.mem_append.1 hs
    · exact ⟨s, List.mem_cons_of_mem _ hs, hreach⟩
    · exact ⟨t, List.mem_cons_self, .head hs hreach⟩

/-- It ends with yes if the goal can be reached from a type that it has seen or that waits. -/
theorem Course.answer_of_reach (h : p.Course goal n waiting seen answer)
    (hfrontier : p.Frontier goal waiting seen) (ht : seen.contains t = true ∨ t ∈ waiting)
    (hreach : ReflTransGen p.Inherits t goal) : answer = true := by
  induction h with
  | exhausted seen =>
    have hseen := ht.resolve_right List.not_mem_nil
    exact absurd hreach (hfrontier.not_reached hseen)
  | found => rfl
  | again _ known _ ih => exact ih (hfrontier.again known) (seen_or_waiting_again known ht)
  | fresh other _ _ ih => exact ih (hfrontier.fresh other) (seen_or_waiting_fresh ht)

/-- The search for a supertype goes its course. -/
theorem isSubtype_course (p : Platform) (t super : String) :
    ∃ n ≤ p.searchSteps, p.Course super n [t] .empty (p.isSubtype t super) := by
  have hsteps : [t].length + p.owed .empty ≤ p.searchSteps := by
    rw [searchSteps_eq, List.length_singleton]
    omega
  obtain ⟨n, hn, hcourse⟩ := leadsTo_course super p.searchSteps [t] .empty hsteps
  exact ⟨n, hn.trans hsteps, hcourse⟩

/-- **A type is a subtype of those that it leads to.** -/
theorem isSubtype_iff : p.isSubtype t super = true ↔ ReflTransGen p.Inherits t super := by
  obtain ⟨n, -, hcourse⟩ := p.isSubtype_course t super
  constructor
  · intro hyes
    obtain ⟨s, hs, hreach⟩ := hcourse.reached hyes
    rw [List.mem_singleton.1 hs] at hreach
    exact hreach
  · exact hcourse.answer_of_reach (frontier_empty p super [t]) (.inr List.mem_cons_self)

/-! ## More declarations -/

theorem superTypes_declareType (p : Platform) (t : String) (supers : List String) (t' : String) :
    (p.declareType t supers).superTypes t' = if t' = t then supers else p.superTypes t' := by
  rw [superTypes, declareType, NameMap.find?_insert]
  split
  · rfl
  · rfl

/-- Where a type had no supertypes, declaring some takes no way away. -/
theorem Inherits.declareType (hnone : p.superTypes t = []) (supers : List String) {a b : String}
    (h : p.Inherits a b) : (p.declareType t supers).Inherits a b := by
  rw [Inherits, superTypes_declareType]
  split
  · rename_i ha
    rw [Inherits, ha, hnone] at h
    cases h
  · exact h

/-- **Whether a type is another one is decided on every hierarchy.** However the declared supertypes
repeat, lead back or are left undeclared, the search ends by itself within its bound, and its answer
is yes exactly if the other type can be reached along declared supertypes. So every type is itself,
what a type is passes on to its subtypes, and a type that gets its first supertypes takes no answer
of yes back. -/
theorem isSubtype_decides (p : Platform) :
    (∀ t super, (∃ n ≤ p.searchSteps, p.Course super n [t] .empty (p.isSubtype t super)) ∧
      (p.isSubtype t super = true ↔ ReflTransGen p.Inherits t super)) ∧
    (∀ t, p.isSubtype t t = true) ∧
    (∀ a b c, p.isSubtype a b = true → p.isSubtype b c = true → p.isSubtype a c = true) ∧
    ∀ t supers, p.superTypes t = [] → ∀ a b, p.isSubtype a b = true →
      (p.declareType t supers).isSubtype a b = true := by
  refine ⟨fun t super => ⟨p.isSubtype_course t super, isSubtype_iff⟩, fun t => ?_,
    fun a b c hab hbc => ?_, fun t supers hnone a b hab => ?_⟩
  · exact isSubtype_iff.2 .refl
  · rw [isSubtype_iff] at hab hbc ⊢
    exact hab.trans hbc
  · rw [isSubtype_iff] at hab ⊢
    exact ReflTransGen.mono (fun _ _ => Inherits.declareType hnone supers) _ _ hab

/-- Two types that lead to each other and to themselves, one of them twice, and a third that is not
declared. -/
def circular : Platform :=
  { types := .ofList [("A", ["B", "A", "B"]), ("B", ["A", "C"])] }

/-- The third one, declared to be a fourth, is still one that both lead to. -/
theorem isSubtype_decides_circular :
    circular.superTypes "C" = [] ∧ circular.isSubtype "A" "B" = true ∧
      circular.isSubtype "B" "C" = true ∧ circular.isSubtype "A" "C" = true ∧
      circular.isSubtype "A" "D" = false ∧
      (circular.declareType "C" ["D"]).isSubtype "A" "C" = true := by
  have hundeclared : circular.superTypes "C" = [] := by decide
  have hab : circular.isSubtype "A" "B" = true := by decide
  have hbc : circular.isSubtype "B" "C" = true := by decide
  obtain ⟨-, -, htrans, hdeclare⟩ := isSubtype_decides circular
  have hac := htrans "A" "B" "C" hab hbc
  exact ⟨hundeclared, hab, hbc, hac, by decide, hdeclare "C" ["D"] hundeclared "A" "C" hac⟩

end Platform

end Enablement
