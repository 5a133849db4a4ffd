import Mathlib.Data.List.Forall2
/-!
# Results — lists, up to the first fault

What is done to the elements of a list, one after another, gives the list of what each gives, or
the first fault among them. Either way says exactly how the elements fared.
-/

namespace Enablement

variable {α β ε : Type} {f : α → Except ε β} {l : List α}

/-- A step for a list whose first element has a fault. -/
theorem mapM_cons_of_error {a : α} {e : ε} (h : f a = .error e) (l : List α) :
    (a :: l).mapM f = .error e := by
  rw [List.mapM_cons, h]
  rfl

/-- And for one whose first element has none. -/
theorem mapM_cons_of_ok {a : α} {b : β} (h : f a = .ok b) (l : List α) :
    (a :: l).mapM f = (l.mapM f).map (b :: ·) := by
  rw [List.mapM_cons, h]
  cases l.mapM f with
  | error e => rfl
  | ok bs => rfl

/-- All elements give something. -/
theorem mapM_eq_ok_iff {bs : List β} :
    l.mapM f = .ok bs ↔ List.Forall₂ (fun a b => f a = .ok b) l bs := by
  induction l generalizing bs with
  | nil =>
    rw [List.forall₂_nil_left_iff]
    exact ⟨fun h => (Except.ok.inj h).symm, fun h => h ▸ rfl⟩
  | cons a l ih =>
    rw [List.forall₂_cons_left_iff]
    cases ha : f a with
    | error e =>
      rw [mapM_cons_of_error ha]
      refine iff_of_false (fun h => nomatch h) ?_
      rintro ⟨b, bs', hb, -⟩
      cases hb
    | ok b =>
      rw [mapM_cons_of_ok ha]
      constructor
      · intro h
        cases hl : l.mapM f with
        | error e => rw [hl] at h; cases h
        | ok bs' =>
          rw [hl] at h
          exact ⟨b, bs', rfl, ih.1 hl, (Except.ok.inj h).symm⟩
      · rintro ⟨b', bs', hb, hbs, rfl⟩
        rw [ih.2 hbs, Except.ok.inj hb]
        rfl

/-- One element has a fault, and those before it have none. -/
theorem mapM_eq_error_iff {e : ε} :
    l.mapM f = .error e ↔ ∃ before a after, l = before ++ a :: after ∧
      (∀ a' ∈ before, ∃ b, f a' = .ok b) ∧ f a = .error e := by
  induction l with
  | nil =>
    refine iff_of_false (fun h => nomatch h) ?_
    rintro ⟨before, a, after, h, -⟩
    exact absurd h (by simp)
  | cons a l ih =>
    cases ha : f a with
    | error e' =>
      rw [mapM_cons_of_error ha]
      constructor
      · intro h
        exact ⟨[], a, l, rfl, List.forall_mem_nil _, ha.trans (congrArg _ (Except.error.inj h))⟩
      · rintro ⟨before, a', after, h, hbefore, he⟩
        cases before with
        | nil =>
          rw [← (List.cons.inj h).1, ha] at he
          exact congrArg _ (Except.error.inj he)
        | cons a'' before =>
          -- then the first element would have to pass
          obtain ⟨b, hb⟩ := hbefore a'' List.mem_cons_self
          rw [← (List.cons.inj h).1, ha] at hb
          cases hb
    | ok b =>
      have hmap : (l.mapM f).map (b :: ·) = .error e ↔ l.mapM f = .error e := by
        cases l.mapM f with
        | error e' => exact Iff.rfl
        | ok bs => exact iff_of_false (fun h => nomatch h) fun h => nomatch h
      rw [mapM_cons_of_ok ha, hmap, ih]
      constructor
      · rintro ⟨before, a', after, rfl, hbefore, he⟩
        exact ⟨a :: before, a', after, rfl, List.forall_mem_cons.2 ⟨⟨b, ha⟩, hbefore⟩, he⟩
      · rintro ⟨before, a', after, h, hbefore, he⟩
        cases before with
        | nil =>
          rw [← (List.cons.inj h).1, ha] at he
          cases he
        | cons a'' before =>
          exact ⟨before, a', after, (List.cons.inj h).2, (List.forall_mem_cons.1 hbefore).2, he⟩

end Enablement
