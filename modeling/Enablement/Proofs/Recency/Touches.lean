import Enablement.Proofs.Recency
import Enablement.Tester.Registry
import Mathlib.Data.Finset.Card
/-!
# Recency — the entry touched longest ago is evicted

What a bounded table holds is told from the calls alone. A key is touched when it is put and when a
call finds it; it is live from its put until it is removed, or until as many live keys as there is
room for have been touched after it (`ages`). After any calls the table lists the live keys, the
latest touched first, each with the value it was put with last; so what goes when a new key comes is
the key touched longest ago (`evicts_touched_longest_ago`).
-/

namespace Enablement

namespace Recency

variable {κ β : Type} [DecidableEq κ]

/-- What can be done with a table. -/
inductive Call (κ β : Type) where
  | put (k : κ) (v : β)
  | get (k : κ)
  | remove (k : κ)
  | clear

/-- What a call makes of the table. -/
def Call.perform : Call κ β → Recency κ β → Recency κ β
  | .put k v, r => r.put k v
  | .get k, r => (r.get k).2
  | .remove k, r => r.remove k
  | .clear, r => r.clear

/-- The table after calls, of which the latest comes first. -/
def after (capacity : ℕ) : List (Call κ β) → Recency κ β
  | [] => { capacity }
  | call :: past => call.perform (after capacity past)

/-- The keys of a table in the order of its entries. -/
def keys (r : Recency κ β) : List κ := r.entries.map (·.1)

/-! ## What the calls say -/

/-- Which keys are live, and when each key was touched last. -/
structure Ages (κ : Type) where
  live : Finset κ := ∅
  touched : κ → ℕ := fun _ => 0

namespace Ages

/-- A key is live and touched now. -/
def touch (a : Ages κ) (k : κ) (now : ℕ) : Ages κ where
  live := insert k a.live
  touched l := if l = k then now else a.touched l

/-- Only as many live keys stay as the capacity allows, those touched latest. -/
def cut (a : Ages κ) (capacity : ℕ) : Ages κ :=
  { a with live := {k ∈ a.live | {l ∈ a.live | a.touched k < a.touched l}.card < capacity} }

/-- A key is live no more. -/
def drop (a : Ages κ) (k : κ) : Ages κ := { a with live := a.live.erase k }

end Ages

/-- The ages after calls, of which the latest comes first. The time is the number of calls. -/
def ages (capacity : ℕ) : List (Call κ β) → Ages κ
  | [] => {}
  | .put k _ :: past => ((ages capacity past).touch k (past.length + 1)).cut capacity
  | .get k :: past =>
    if k ∈ (ages capacity past).live then (ages capacity past).touch k (past.length + 1)
    else ages capacity past
  | .remove k :: past => (ages capacity past).drop k
  | .clear :: past => { ages capacity past with live := ∅ }

/-- The value that a key was put with last. -/
def latest? (k : κ) : List (Call κ β) → Option β
  | [] => none
  | .put l v :: past => if l = k then some v else latest? k past
  | _ :: past => latest? k past

/-! ## The table in the order of touches -/

variable {r : Recency κ β} {a : Ages κ} {now capacity : ℕ} {k l : κ} {v : β}
  {past : List (Call κ β)}

/-- The table lists the live keys, the latest touched first. -/
structure Mirrors (r : Recency κ β) (a : Ages κ) (now : ℕ) : Prop where
  mem_keys_iff : ∀ k, k ∈ r.keys ↔ k ∈ a.live
  ordered : r.keys.Pairwise fun k l => a.touched l < a.touched k
  touched_le : ∀ k, a.touched k ≤ now

/-- Of a list in the order of touches, those elements come first after which few were touched. -/
theorem mem_take_iff {touched : κ → ℕ} {ks : List κ}
    (h : ks.Pairwise fun k l => touched l < touched k) (n : ℕ) :
    k ∈ ks.take n ↔ k ∈ ks ∧ {l ∈ ks.toFinset | touched k < touched l}.card < n := by
  induction ks generalizing n with
  | nil => simp
  | cons m ks ih =>
    obtain ⟨hhead, htail⟩ := List.pairwise_cons.1 h
    cases n with
    | zero => simp
    | succ n =>
      rw [List.take_succ_cons, List.mem_cons, ih htail, List.mem_cons, List.toFinset_cons,
        Finset.filter_insert]
      by_cases hk : k ∈ ks
      · -- the head was touched after the key
        have hlt : touched k < touched m := hhead k hk
        have hm : m ∉ {l ∈ ks.toFinset | touched k < touched l} := by
          intro hm
          have hself := hhead m (by simpa using (Finset.mem_filter.1 hm).1)
          omega
        have hne : k ≠ m := by
          rintro rfl
          omega
        rw [if_pos hlt, Finset.card_insert_of_notMem hm]
        simp [hk, hne]
      · have hnone (hkm : k = m) : {l ∈ ks.toFinset | touched k < touched l} = ∅ := by
          refine Finset.filter_eq_empty_iff.2 fun l hl => ?_
          have hlt := hhead l (List.mem_toFinset.1 hl)
          rw [hkm]
          omega
        constructor
        · rintro (rfl | ⟨hmem, -⟩)
          · rw [if_neg (Nat.lt_irrefl _), hnone rfl]
            simp
          · exact absurd hmem hk
        · rintro ⟨rfl | hmem, -⟩
          · exact .inl rfl
          · exact absurd hmem hk

/-- The keys of the other entries are the other keys. -/
theorem map_fst_others (r : Recency κ β) (k : κ) :
    (r.others k).map (·.1) = r.keys.filter (· ≠ k) := by
  rw [others, keys, List.filter_map]
  rfl

omit [DecidableEq κ] in
/-- No key is listed twice. -/
theorem Mirrors.nodup (h : Mirrors r a now) : r.keys.Nodup := by
  refine h.ordered.imp ?_
  rintro k _ hlt rfl
  omega

/-- As many keys are live as the table has entries. -/
theorem Mirrors.size_eq (h : Mirrors r a now) : r.size = a.live.card := by
  have hlive : a.live = r.keys.toFinset := by
    ext k
    rw [List.mem_toFinset, h.mem_keys_iff]
  rw [hlive, List.toFinset_card_of_nodup h.nodup, keys, List.length_map]
  rfl

/-! ## One call -/

/-- An entry that moves to the front, or comes there, is the latest touched. -/
theorem Mirrors.touch (h : Mirrors r a now) (k : κ) (v : β) :
    Mirrors { r with entries := (k, v) :: r.others k } (a.touch k (now + 1)) (now + 1) := by
  have hkeys : keys { r with entries := (k, v) :: r.others k } = k :: r.keys.filter (· ≠ k) := by
    rw [keys, List.map_cons, map_fst_others]
  have hother {l : κ} (hl : l ∈ r.keys.filter (· ≠ k)) : (a.touch k (now + 1)).touched l =
      a.touched l := by
    have hne : l ≠ k := by simpa using (List.mem_filter.1 hl).2
    exact if_neg hne
  refine ⟨fun l => ?_, ?_, fun l => ?_⟩
  · rw [hkeys, List.mem_cons, List.mem_filter, h.mem_keys_iff, Ages.touch, Finset.mem_insert]
    by_cases hl : l = k <;> simp [hl]
  · rw [hkeys, List.pairwise_cons]
    constructor
    · intro l hl
      have hle := h.touched_le l
      have hself : (a.touch k (now + 1)).touched k = now + 1 := if_pos rfl
      rw [hother hl, hself]
      omega
    · refine (h.ordered.filter _).imp_of_mem fun hl hm hlt => ?_
      rwa [hother hl, hother hm]
  · have hle := h.touched_le l
    simp only [Ages.touch]
    split <;> omega

/-- What is cut off the end of the table was touched longest ago. -/
theorem Mirrors.cut (h : Mirrors r a now) (n : ℕ) :
    Mirrors { r with entries := r.entries.take n } (a.cut n) now := by
  have hkeys : keys { r with entries := r.entries.take n } = r.keys.take n := List.map_take
  have hlive : r.keys.toFinset = a.live := by
    ext k
    rw [List.mem_toFinset, h.mem_keys_iff]
  refine ⟨fun k => ?_, ?_, h.touched_le⟩
  · rw [hkeys, mem_take_iff h.ordered, hlive, h.mem_keys_iff, Ages.cut, Finset.mem_filter]
  · rw [hkeys]
    exact h.ordered.sublist (List.take_sublist n _)

theorem Mirrors.remove (h : Mirrors r a now) (k : κ) : Mirrors (r.remove k) (a.drop k) now := by
  have hkeys : (r.remove k).keys = r.keys.filter (· ≠ k) := map_fst_others r k
  refine ⟨fun l => ?_, ?_, h.touched_le⟩
  · rw [hkeys, List.mem_filter, h.mem_keys_iff, Ages.drop, Finset.mem_erase, and_comm]
    simp
  · rw [hkeys]
    exact h.ordered.filter _

omit [DecidableEq κ] in
/-- Time may pass. -/
theorem Mirrors.later (h : Mirrors r a now) : Mirrors r a (now + 1) :=
  ⟨h.mem_keys_iff, h.ordered, fun k => Nat.le_succ_of_le (h.touched_le k)⟩

/-- A key is listed if it is found. -/
theorem mem_keys_iff_isSome (r : Recency κ β) (k : κ) : k ∈ r.keys ↔ (r.find? k).isSome = true := by
  rw [find?, Option.isSome_map, List.find?_isSome, keys, List.mem_map]
  simp

theorem get_of_find?_eq_none (h : r.find? k = none) : r.get k = (none, r) := by
  rw [get, h]

theorem get_of_find?_eq_some (h : r.find? k = some v) :
    r.get k = (some v, { r with entries := (k, v) :: r.others k }) := by
  rw [get, h]

/-- **Each call does to the table what it does to the ages.** -/
theorem Mirrors.perform (h : Mirrors r (ages capacity past) past.length)
    (hcapacity : r.capacity = capacity) (call : Call κ β) :
    Mirrors (call.perform r) (ages capacity (call :: past)) (past.length + 1) := by
  cases call with
  | put k v => exact hcapacity ▸ (h.touch k v).cut r.capacity
  | get k =>
    have hlive : k ∈ (ages capacity past).live ↔ (r.find? k).isSome = true :=
      (h.mem_keys_iff k).symm.trans (mem_keys_iff_isSome r k)
    rw [Call.perform, ages]
    cases hfind : r.find? k with
    | none =>
      rw [hfind] at hlive
      rw [if_neg (by simp [hlive]), get_of_find?_eq_none hfind]
      exact h.later
    | some v =>
      rw [hfind] at hlive
      rw [if_pos (hlive.2 rfl), get_of_find?_eq_some hfind]
      exact h.touch k v
  | remove k => exact (h.remove k).later
  | clear => exact ⟨by simp [Call.perform, ages, clear, keys], List.Pairwise.nil,
      h.later.touched_le⟩

theorem perform_capacity (call : Call κ β) (r : Recency κ β) :
    (call.perform r).capacity = r.capacity := by
  cases call with
  | get k => exact get_capacity r k
  | _ => rfl

theorem after_capacity (capacity : ℕ) (past : List (Call κ β)) :
    (after capacity past).capacity = capacity := by
  induction past with
  | nil => rfl
  | cons call past ih => exact (perform_capacity call _).trans ih

/-- **After any calls the table mirrors the ages.** -/
theorem mirrors_after (capacity : ℕ) (past : List (Call κ β)) :
    Mirrors (after capacity past) (ages capacity past) past.length := by
  induction past with
  | nil => exact ⟨by simp [after, ages, keys], List.Pairwise.nil, fun _ => Nat.le_refl 0⟩
  | cons call past ih => exact ih.perform (after_capacity capacity past) call

theorem tidy_after (capacity : ℕ) (past : List (Call κ β)) : (after capacity past).Tidy := by
  induction past with
  | nil => exact Tidy.empty capacity
  | cons call past ih =>
    cases call with
    | put k v => exact ih.put k v
    | get k => exact ih.get k
    | remove k => exact ih.remove k
    | clear => exact Tidy.clear _

/-! ## Values -/

/-- **Whatever is found is the value that was put last.** -/
theorem latest?_of_find? (h : (after capacity past).find? k = some v) :
    latest? k past = some v := by
  induction past with
  | nil => cases h
  | cons call past ih =>
    rw [after] at h
    cases call with
    | put l w =>
      rw [latest?]
      rcases find?_put h with ⟨rfl, rfl⟩ | ⟨hne, hold⟩
      · rw [if_pos rfl]
      · rw [if_neg (Ne.symm hne), ih hold]
    | get l =>
      rw [Call.perform, find?_get] at h
      exact ih h
    | remove l =>
      rw [Call.perform, find?_remove] at h
      split at h
      · cases h
      · exact ih h
    | clear => cases h

/-! ## Eviction -/

/-- What is found after an entry has come to the front of others. -/
theorem find?_cons_others (r : Recency κ β) (k l : κ) (v : β) :
    find? { r with entries := (k, v) :: r.others k } l = if l = k then some v else r.find? l := by
  rw [find?, List.find?_cons]
  by_cases hl : l = k
  · simp [hl]
  · have hne : ¬ k = l := Ne.symm hl
    simp only [hne, decide_false, find?_others, if_neg hl]
    rfl

/-- Where there is room nothing is evicted. -/
theorem find?_put_of_lt (h : (r.others k).length < r.capacity) (l : κ) (v : β) :
    (r.put k v).find? l = if l = k then some v else r.find? l := by
  have hall : ((k, v) :: r.others k).take r.capacity = (k, v) :: r.others k :=
    List.take_of_length_le (by rw [List.length_cons]; omega)
  rw [put, hall, find?_cons_others]

theorem others_eq (h : r.find? k = none) : r.others k = r.entries := by
  refine List.filter_eq_self.2 fun e he => ?_
  rw [find?, Option.map_eq_none_iff, List.find?_eq_none] at h
  simpa using h e he

omit [DecidableEq κ] in
/-- A full table has a last entry, and all others were touched after it. -/
theorem Mirrors.exists_oldest (h : Mirrors r a now) (hsize : 0 < r.size) :
    ∃ front oldest, r.entries = front ++ [oldest] ∧
      ∀ l ∈ a.live, l ≠ oldest.1 → a.touched oldest.1 < a.touched l := by
  have hne : r.entries ≠ [] := List.length_pos_iff.1 hsize
  obtain ⟨front, oldest, hentries⟩ := (List.eq_nil_or_concat r.entries).resolve_left hne
  rw [List.concat_eq_append] at hentries
  refine ⟨front, oldest, hentries, fun l hl hlo => ?_⟩
  have hordered := h.ordered
  have hmem := (h.mem_keys_iff l).2 hl
  rw [keys, hentries, List.map_append] at hordered hmem
  rcases List.mem_append.1 hmem with hfront | hlast
  · exact (List.pairwise_append.1 hordered).2.2 l hfront oldest.1 (by simp)
  · exact absurd (by simpa using hlast) hlo

/-- **A new entry in a full table costs the last one.** -/
theorem find?_put_of_full (hnodup : r.keys.Nodup) (hk : r.find? k = none)
    {front : List (κ × β)} {oldest : κ × β} (hentries : r.entries = front ++ [oldest])
    (hfull : r.entries.length = r.capacity) (l : κ) (v : β) :
    (r.put k v).find? l =
      if l = k then some v else if l = oldest.1 then none else r.find? l := by
  have htake : ((k, v) :: r.others k).take r.capacity = (k, v) :: front := by
    rw [others_eq hk, ← hfull, hentries, List.length_append, List.length_singleton,
      List.take_succ_cons, List.take_left]
  rw [put, htake, find?, List.find?_cons]
  by_cases hlk : l = k
  · simp [hlk]
  · have hne : ¬ k = l := Ne.symm hlk
    simp only [hne, decide_false, if_neg hlk]
    rw [find?, hentries, List.find?_append]
    by_cases hlo : l = oldest.1
    · -- it was listed once, at the end
      rw [if_pos hlo, Option.map_eq_none_iff, List.find?_eq_none]
      intro e he heq
      rw [keys, hentries, List.map_append, List.nodup_append] at hnodup
      have hel : e.1 = l := by simpa using heq
      exact hnodup.2.2 e.1 (List.mem_map_of_mem he) oldest.1 (by simp) (hel.trans hlo)
    · have hlast : [oldest].find? (fun e => e.1 = l) = none := by simp [Ne.symm hlo]
      rw [if_neg hlo, hlast, Option.or_none]

/-- **A bounded table keeps the keys that were touched last, each with its last value.** It lists
the live keys, those that were touched later before those that were touched earlier. A live key is
found with the value it was put with last; looking for another key changes nothing. Putting a live
key replaces its value and evicts nothing, and so does putting a new key while there is room. In a
full table it evicts the key that was touched longest ago, and no other. -/
theorem evicts_touched_longest_ago (hcapacity : 1 ≤ capacity) (past : List (Call κ β)) :
    ((after capacity past).keys.Pairwise fun k l =>
      (ages capacity past).touched l < (ages capacity past).touched k) ∧
    (∀ k, k ∈ (after capacity past).keys ↔ k ∈ (ages capacity past).live) ∧
    (∀ k ∈ (ages capacity past).live, ∃ v, latest? k past = some v ∧
      ((after capacity past).get k).1 = some v) ∧
    (∀ k, k ∉ (ages capacity past).live →
      (after capacity past).get k = (none, after capacity past)) ∧
    (∀ k v, k ∈ (ages capacity past).live ∨ (ages capacity past).live.card < capacity →
      ∀ l, ((after capacity past).put k v).find? l =
        if l = k then some v else (after capacity past).find? l) ∧
    (∀ k v, k ∉ (ages capacity past).live → (ages capacity past).live.card = capacity →
      ∃ oldest ∈ (ages capacity past).live,
        (∀ l ∈ (ages capacity past).live, l ≠ oldest →
          (ages capacity past).touched oldest < (ages capacity past).touched l) ∧
        ∀ l, ((after capacity past).put k v).find? l =
          if l = k then some v else if l = oldest then none
          else (after capacity past).find? l) ∧
    (after capacity past).size = (ages capacity past).live.card ∧
    (after capacity past).size ≤ capacity := by
  have hmirrors := mirrors_after capacity past
  have htidy := tidy_after capacity past
  have hcap := after_capacity capacity past
  have hlive (k : κ) : k ∈ (ages capacity past).live ↔
      ((after capacity past).find? k).isSome = true :=
    (hmirrors.mem_keys_iff k).symm.trans (mem_keys_iff_isSome _ k)
  have hdead {k : κ} (hk : k ∉ (ages capacity past).live) :
      (after capacity past).find? k = none := by
    simpa [hlive] using hk
  have hsize := hmirrors.size_eq
  have hle := htidy.size_le
  rw [hcap] at hle
  refine ⟨hmirrors.ordered, hmirrors.mem_keys_iff, ?found, ?missed, ?room, ?full, hsize, hle⟩
  case found =>
    intro k hk
    obtain ⟨v, hv⟩ := Option.isSome_iff_exists.1 ((hlive k).1 hk)
    exact ⟨v, latest?_of_find? hv, (get_fst _ k).trans hv⟩
  case missed =>
    intro k hk
    exact get_of_find?_eq_none (hdead hk)
  case room =>
    intro k v hk l
    refine find?_put_of_lt ?_ l v
    rw [hcap]
    rcases hk with hk | hroom
    · obtain ⟨w, hw⟩ := Option.isSome_iff_exists.1 ((hlive k).1 hk)
      exact Nat.lt_of_lt_of_le (length_others_lt hw) hle
    · have hothers := (others_sublist (after capacity past) k).length_le
      have hentries : (after capacity past).entries.length = (ages capacity past).live.card := hsize
      omega
  case full =>
    intro k v hk hfull
    obtain ⟨front, oldest, hentries, holdest⟩ := hmirrors.exists_oldest (by omega)
    have hmem : oldest.1 ∈ (ages capacity past).live := by
      rw [← hmirrors.mem_keys_iff, keys, hentries]
      simp
    refine ⟨oldest.1, hmem, holdest, fun l => ?_⟩
    have hlength : (after capacity past).entries.length = (after capacity past).capacity :=
      hsize.trans (hfull.trans hcap.symm)
    exact find?_put_of_full hmirrors.nodup (hdead hk) hentries hlength l v

/-- The key of a property of strings. -/
def ofStrings (name : String) : PropertyKey := ⟨"string", "ns", name⟩

/-- A table of two in which `a` was found after `b` was put loses `b`. -/
theorem evicts_touched_longest_ago_second :
    let past : List (Call PropertyKey ℕ) :=
      [.get (ofStrings "a"), .put (ofStrings "b") 2, .put (ofStrings "a") 1]
    ((after 2 past).put (ofStrings "c") 3).find? (ofStrings "b") = none ∧
      ((after 2 past).put (ofStrings "c") 3).find? (ofStrings "a") = some 1 := by
  intro past
  obtain ⟨-, -, -, -, -, hfull, -⟩ := evicts_touched_longest_ago (by decide : 1 ≤ 2) past
  obtain ⟨oldest, hmem, holdest, hfind⟩ := hfull (ofStrings "c") 3 (by decide) (by decide)
  have hb : oldest = ofStrings "b" := by
    by_contra hne
    have hlt := holdest (ofStrings "b") (by decide) (Ne.symm hne)
    have hcases : ∀ k ∈ (ages 2 past).live, (ages 2 past).touched (ofStrings "b") ≤
        (ages 2 past).touched k := by decide
    exact absurd hlt (Nat.not_lt.2 (hcases oldest hmem))
  rw [hfind, hfind, hb]
  decide

end Recency

end Enablement
