import Enablement.Tester.Recency
import Mathlib.Data.List.Nodup
/-!
# Recency — what a bounded table finds

A table that forgets is described by what it finds under each key. Finding changes nothing that is
found, dropping a key changes what is found under it alone, and after putting an entry everything
else that is found was found before: an eviction can only lose entries (`find?_put`). No operation
exceeds the capacity, nor leaves two entries under one key (`Tidy`).
-/

namespace Enablement

namespace Recency

variable {κ β : Type} [DecidableEq κ] {r : Recency κ β} {k k' : κ} {v w : β}

/-- The entries of the other keys are found as before, and nothing is found under the key. -/
theorem find?_others (r : Recency κ β) (k k' : κ) :
    (r.others k).find? (fun e => e.1 = k') =
      if k' = k then none else r.entries.find? (fun e => e.1 = k') := by
  rw [others, List.find?_filter]
  split
  · rename_i h
    subst h
    simp
  · rename_i h
    congr 1
    funext e
    by_cases he : e.1 = k'
    · simp [he, h]
    · simp [he]

@[simp] theorem find?_remove (r : Recency κ β) (k k' : κ) :
    (r.remove k).find? k' = if k' = k then none else r.find? k' := by
  rw [remove, find?, find?_others]
  split
  · rfl
  · rfl

/-- Finding gives what is found. -/
@[simp] theorem get_fst (r : Recency κ β) (k : κ) : (r.get k).1 = r.find? k := by
  rw [get]
  split
  · rename_i h
    exact h.symm
  · rename_i h
    exact h.symm

/-- Finding an entry is a use of it, and changes nothing that is found. -/
@[simp] theorem find?_get (r : Recency κ β) (k k' : κ) : (r.get k).2.find? k' = r.find? k' := by
  rw [get]
  split
  · rename_i v h
    rw [find?, List.find?_cons]
    by_cases hk : k = k'
    · subst hk
      simp [h]
    · simp only [hk, decide_false, find?_others, if_neg (Ne.symm hk)]
      rfl
  · rfl

/-- **An eviction only loses entries.** What is found after an entry has been put is that entry, or
was found before under another key. -/
theorem find?_put (h : (r.put k v).find? k' = some w) :
    (k' = k ∧ w = v) ∨ (k' ≠ k ∧ r.find? k' = some w) := by
  rw [find?, put] at h
  obtain ⟨e, he, rfl⟩ := Option.map_eq_some_iff.1 h
  have hall := (List.take_prefix r.capacity ((k, v) :: r.others k)).find?_eq_some he
  rw [List.find?_cons] at hall
  by_cases hk : k = k'
  · subst hk
    simp only [decide_true, Option.some.injEq] at hall
    exact .inl ⟨rfl, by rw [← hall]⟩
  · simp only [hk, decide_false, find?_others, if_neg (Ne.symm hk)] at hall
    exact .inr ⟨Ne.symm hk, by rw [find?, hall]; rfl⟩

/-! ## How much a table holds -/

/-- A table that keeps to its capacity, with one entry at most under each key. -/
structure Tidy (r : Recency κ β) : Prop where
  size_le : r.size ≤ r.capacity
  keys_nodup : (r.entries.map (·.1)).Nodup

/-- The entries of the other keys keep their order. -/
theorem others_sublist (r : Recency κ β) (k : κ) : (r.others k).Sublist r.entries :=
  List.filter_sublist

/-- They are fewer if the key has an entry. -/
theorem length_others_lt (h : r.find? k = some v) : (r.others k).length < r.entries.length := by
  obtain ⟨e, he, -⟩ := Option.map_eq_some_iff.1 h
  have hkey : e.1 = k := by simpa using List.find?_some he
  refine List.length_filter_lt_length_iff_exists.2 ⟨e, List.mem_of_find?_eq_some he, ?_⟩
  simp [hkey]

namespace Tidy

omit [DecidableEq κ] in
/-- A new table is tidy. -/
theorem empty (capacity : Nat) : Tidy ({ capacity } : Recency κ β) :=
  ⟨Nat.zero_le _, List.nodup_nil⟩

/-- In a tidy table every entry is the one that is found under its key. -/
theorem mem_entries_iff (h : r.Tidy) : (k, v) ∈ r.entries ↔ r.find? k = some v := by
  constructor
  · intro hmem
    cases hf : r.entries.find? (fun e => e.1 = k) with
    | none =>
      have hnone := List.find?_eq_none.1 hf (k, v) hmem
      simp at hnone
    | some e =>
      -- both are entries of the key, and it has one at most
      have hkey : e.1 = k := by simpa using List.find?_some hf
      have heq : e = (k, v) :=
        List.inj_on_of_nodup_map h.keys_nodup (List.mem_of_find?_eq_some hf) hmem hkey
      rw [find?, hf, heq]
      rfl
  · intro hfind
    obtain ⟨e, he, rfl⟩ := Option.map_eq_some_iff.1 hfind
    have hkey : e.1 = k := by simpa using List.find?_some he
    subst hkey
    exact List.mem_of_find?_eq_some he

/-- Neither has the table without a key more entries, nor two of them under another one. -/
theorem remove (h : r.Tidy) (k : κ) : (r.remove k).Tidy := by
  have hsub := others_sublist r k
  exact ⟨Nat.le_trans hsub.length_le h.size_le, h.keys_nodup.sublist (hsub.map _)⟩

/-- The key that has been dropped can be put in front of the others. -/
theorem nodup_cons_others (h : r.Tidy) (k : κ) (v : β) :
    (((k, v) :: r.others k).map (·.1)).Nodup := by
  rw [List.map_cons, List.nodup_cons]
  refine ⟨?_, (h.remove k).keys_nodup⟩
  intro hmem
  obtain ⟨e, he, hkey⟩ := List.mem_map.1 hmem
  have hne := (List.mem_filter.1 he).2
  simp [hkey] at hne

/-- Using an entry moves it. -/
theorem get (h : r.Tidy) (k : κ) : (r.get k).2.Tidy := by
  rw [Recency.get]
  split
  · rename_i v hfind
    have hlt := length_others_lt hfind
    have hle : r.entries.length ≤ r.capacity := h.size_le
    refine ⟨?_, h.nodup_cons_others k v⟩
    show (r.others k).length + 1 ≤ r.capacity
    omega
  · exact h

/-- **An eviction makes room for a new entry.** -/
theorem put (h : r.Tidy) (k : κ) (v : β) : (r.put k v).Tidy := by
  refine ⟨List.length_take_le _ _, ?_⟩
  have htake : (((k, v) :: r.others k).take r.capacity).Sublist ((k, v) :: r.others k) :=
    List.take_sublist _ _
  exact (h.nodup_cons_others k v).sublist (htake.map _)

omit [DecidableEq κ] in
theorem clear (r : Recency κ β) : r.clear.Tidy := ⟨Nat.zero_le _, List.nodup_nil⟩

end Tidy

/-- Using a table leaves its capacity as it is. -/
@[simp] theorem get_capacity (r : Recency κ β) (k : κ) : (r.get k).2.capacity = r.capacity := by
  rw [get]
  split
  · rfl
  · rfl

end Recency

end Enablement
