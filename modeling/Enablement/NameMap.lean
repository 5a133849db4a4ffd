/-!
# Name maps — tables keyed by names

A table from names to values, kept as a list of entries in strictly increasing order of the names,
which is the order in which answers show them. The order makes the list canonical: two tables that
find the same values under the same names are equal (`NameMap.ext_find?`). `NameSet` is the same for
names alone.
-/

namespace Enablement

universe u

/-- Two names are in order, equal, or in reverse order. -/
theorem name_trichotomy (a b : String) : a < b ∨ a = b ∨ b < a := by
  rcases Decidable.em (a < b) with h | h
  · exact .inl h
  · rcases Decidable.em (b < a) with h' | h'
    · exact .inr (.inr h')
    · exact .inr (.inl (String.le_antisymm (String.not_lt.1 h') (String.not_lt.1 h)))

/-- A table from names to values, its entries in increasing order of the names. -/
structure NameMap (β : Type u) where
  entries : List (String × β)
  sorted : entries.Pairwise (fun a b => a.1 < b.1) := by simp

namespace NameMap

variable {β : Type u}

/-! ## Entries -/

/-- The value of the first entry of a name. -/
def findEntry (k : String) : List (String × β) → Option β
  | [] => none
  | (k', v) :: rest => if k = k' then some v else findEntry k rest

/-- Puts an entry in its place in an ordered list, replacing one of the same name. -/
def insertEntry (k : String) (v : β) : List (String × β) → List (String × β)
  | [] => [(k, v)]
  | (k', v') :: rest =>
    if k < k' then (k, v) :: (k', v') :: rest
    else if k = k' then (k, v) :: rest
    else (k', v') :: insertEntry k v rest

theorem mem_insertEntry {k : String} {v : β} {e : String × β} {l : List (String × β)} :
    e ∈ insertEntry k v l → e = (k, v) ∨ e ∈ l := by
  induction l with
  | nil => simp [insertEntry]
  | cons hd tl ih =>
    rw [insertEntry]
    split
    · simp
    · split
      · simp only [List.mem_cons]; rintro (h | h) <;> simp [h]
      · simp only [List.mem_cons]
        rintro (h | h)
        · simp [h]
        · rcases ih h with h | h <;> simp [h]

theorem sorted_insertEntry (k : String) (v : β) {l : List (String × β)}
    (h : l.Pairwise (fun a b => a.1 < b.1)) :
    (insertEntry k v l).Pairwise (fun a b => a.1 < b.1) := by
  induction l with
  | nil => simp [insertEntry]
  | cons hd tl ih =>
    obtain ⟨k', v'⟩ := hd
    rw [List.pairwise_cons] at h
    rw [insertEntry]
    split
    · rename_i hlt
      refine List.pairwise_cons.2 ⟨fun e he => ?_, List.pairwise_cons.2 h⟩
      rcases List.mem_cons.1 he with rfl | he
      · exact hlt
      · exact String.lt_trans hlt (h.1 e he)
    · split
      · rename_i heq
        subst heq
        exact List.pairwise_cons.2 h
      · rename_i hlt hne
        refine List.pairwise_cons.2 ⟨fun e he => ?_, ih h.2⟩
        rcases mem_insertEntry he with rfl | he
        · rcases name_trichotomy k k' with h' | h' | h'
          · exact absurd h' hlt
          · exact absurd h' hne
          · exact h'
        · exact h.1 e he

theorem findEntry_insertEntry (k k' : String) (v : β) (l : List (String × β)) :
    findEntry k' (insertEntry k v l) = if k' = k then some v else findEntry k' l := by
  induction l with
  | nil => rfl
  | cons hd tl ih =>
    obtain ⟨j, w⟩ := hd
    rw [insertEntry]
    split
    · rfl
    · split
      · rename_i hk
        subst hk
        by_cases h : k' = k <;> simp [findEntry, h]
      · rename_i hne
        by_cases hj : k' = j
        · subst hj
          simp [findEntry, Ne.symm hne]
        · simp [findEntry, hj, ih]

theorem findEntry_filter_ne (k k' : String) (l : List (String × β)) :
    findEntry k' (l.filter (fun e => e.1 != k)) = if k' = k then none else findEntry k' l := by
  induction l with
  | nil => simp [findEntry]
  | cons hd tl ih =>
    obtain ⟨j, w⟩ := hd
    by_cases hj : j = k
    · subst hj
      by_cases h : k' = j
      · simpa [h] using ih
      · simp [findEntry, h, ih]
    · by_cases h : k' = j
      · subst h
        simp [findEntry, hj]
      · simp [findEntry, h, hj, ih]

theorem findEntry_eq_none_of_lt {k : String} {l : List (String × β)}
    (h : ∀ e ∈ l, k < e.1) : findEntry k l = none := by
  induction l with
  | nil => rfl
  | cons hd tl ih =>
    have hk : k ≠ hd.1 := fun e => String.lt_irrefl k (by
      have := h hd (by simp)
      rwa [← e] at this)
    rw [findEntry, if_neg hk]
    exact ih (fun e he => h e (by simp [he]))

theorem entries_ext {l m : List (String × β)}
    (hl : l.Pairwise (fun a b => a.1 < b.1)) (hm : m.Pairwise (fun a b => a.1 < b.1))
    (h : ∀ k, findEntry k l = findEntry k m) : l = m := by
  induction l generalizing m with
  | nil =>
    cases m with
    | nil => rfl
    | cons e m => have := h e.1; simp [findEntry] at this
  | cons d l ih =>
    cases m with
    | nil => have := h d.1; simp [findEntry] at this
    | cons e m =>
      obtain ⟨dk, dv⟩ := d
      obtain ⟨ek, ev⟩ := e
      rw [List.pairwise_cons] at hl hm
      have hk : dk = ek := by
        rcases name_trichotomy dk ek with hlt | heq | hlt
        · have h1 := h dk
          have h2 : findEntry dk ((ek, ev) :: m) = none :=
            findEntry_eq_none_of_lt (fun e he => by
              rcases List.mem_cons.1 he with rfl | he
              · exact hlt
              · exact String.lt_trans hlt (hm.1 e he))
          rw [h2] at h1
          simp [findEntry] at h1
        · exact heq
        · have h1 := h ek
          have h2 : findEntry ek ((dk, dv) :: l) = none :=
            findEntry_eq_none_of_lt (fun e he => by
              rcases List.mem_cons.1 he with rfl | he
              · exact hlt
              · exact String.lt_trans hlt (hl.1 e he))
          rw [h2] at h1
          simp [findEntry] at h1
      subst hk
      have hv : dv = ev := by have := h dk; simpa [findEntry] using this
      subst hv
      have ht : l = m := ih hl.2 hm.2 (fun k => by
        by_cases hk : k = dk
        · subst hk
          rw [findEntry_eq_none_of_lt hl.1, findEntry_eq_none_of_lt hm.1]
        · have := h k
          simpa [findEntry, hk] using this)
      rw [ht]

/-! ## The table -/

/-- The table without entries. -/
def empty : NameMap β := ⟨[], .nil⟩

instance : EmptyCollection (NameMap β) := ⟨empty⟩
instance : Inhabited (NameMap β) := ⟨empty⟩

/-- The value under a name. -/
def find? (t : NameMap β) (k : String) : Option β :=
  findEntry k t.entries

/-- Binds a name, replacing its earlier binding. -/
def insert (t : NameMap β) (k : String) (v : β) : NameMap β :=
  ⟨insertEntry k v t.entries, sorted_insertEntry k v t.sorted⟩

/-- Unbinds a name. -/
def erase (t : NameMap β) (k : String) : NameMap β :=
  ⟨t.entries.filter (fun e => e.1 != k), t.sorted.filter _⟩

/-- Whether a name is bound. -/
def contains (t : NameMap β) (k : String) : Bool :=
  (t.find? k).isSome

/-- The bound names, in increasing order. -/
def names (t : NameMap β) : List String :=
  t.entries.map (·.1)

/-- How many names are bound. -/
def size (t : NameMap β) : Nat :=
  t.entries.length

/-- Whether no name is bound. -/
def isEmpty (t : NameMap β) : Bool :=
  t.entries.isEmpty

/-- The table of a list of bindings; of two bindings of one name the later stands. -/
def ofList (l : List (String × β)) : NameMap β :=
  l.foldl (fun t e => t.insert e.1 e.2) empty

/-- Changes every value and drops the names for which `f` gives none. -/
def filterMap {γ : Type u} (f : β → Option γ) (t : NameMap β) : NameMap γ where
  entries := t.entries.filterMap (fun e => (f e.2).map (e.1, ·))
  sorted := by
    refine List.Pairwise.filterMap _ (fun a b hab x hx y hy => ?_) t.sorted
    cases ha : f a.2 <;> cases hb : f b.2 <;> simp_all
    subst hx hy
    exact hab

instance [DecidableEq β] : DecidableEq (NameMap β) := fun a b =>
  if h : a.entries = b.entries then
    isTrue (by cases a; cases b; cases h; rfl)
  else isFalse (fun e => h (e ▸ rfl))

/-! ## What the operations do to the bindings -/

@[simp] theorem find?_empty (k : String) : (empty : NameMap β).find? k = none := rfl

/-- A bound name is found with its latest value; the others are untouched. -/
theorem find?_insert (t : NameMap β) (k k' : String) (v : β) :
    (t.insert k v).find? k' = if k' = k then some v else t.find? k' :=
  findEntry_insertEntry k k' v t.entries

/-- An unbound name is not found; the others are untouched. -/
theorem find?_erase (t : NameMap β) (k k' : String) :
    (t.erase k).find? k' = if k' = k then none else t.find? k' :=
  findEntry_filter_ne k k' t.entries

theorem find?_insert_self (t : NameMap β) (k : String) (v : β) :
    (t.insert k v).find? k = some v := by
  rw [find?_insert, if_pos rfl]

theorem find?_insert_of_ne {k k' : String} (h : k' ≠ k) (t : NameMap β) (v : β) :
    (t.insert k v).find? k' = t.find? k' := by
  rw [find?_insert, if_neg h]

theorem find?_erase_self (t : NameMap β) (k : String) : (t.erase k).find? k = none := by
  rw [find?_erase, if_pos rfl]

theorem find?_erase_of_ne {k k' : String} (h : k' ≠ k) (t : NameMap β) :
    (t.erase k).find? k' = t.find? k' := by
  rw [find?_erase, if_neg h]

/-- The names are those under which something is found. -/
theorem contains_names (t : NameMap β) (k : String) : t.names.contains k = t.contains k := by
  obtain ⟨l, hl⟩ := t
  simp only [names, contains, find?]
  clear hl
  induction l with
  | nil => rfl
  | cons e l ih =>
    rw [List.map_cons, List.contains_cons, findEntry, ih]
    by_cases h : k = e.1 <;> simp [h]

/-- A name under which something is found is bound. -/
theorem mem_names_of_find? {t : NameMap β} {k : String} {v : β} (h : t.find? k = some v) :
    k ∈ t.names := by
  rw [← List.contains_iff_mem, contains_names, contains, h]
  rfl

/-- What is bound is found. -/
theorem find?_of_mem_entries {t : NameMap β} {e : String × β} (h : e ∈ t.entries) :
    t.find? e.1 = some e.2 := by
  obtain ⟨l, hl⟩ := t
  simp only [find?] at h ⊢
  induction l with
  | nil => cases h
  | cons hd l ih =>
    rw [List.pairwise_cons] at hl
    rw [findEntry]
    rcases List.mem_cons.1 h with rfl | h
    · rw [if_pos rfl]
    · have hne : e.1 ≠ hd.1 := fun heq => String.lt_irrefl hd.1 (heq ▸ hl.1 e h)
      rw [if_neg hne]
      exact ih hl.2 h

/-- The names are in increasing order. -/
theorem sorted_names (t : NameMap β) : t.names.Pairwise (· < ·) :=
  List.pairwise_map.2 t.sorted

/-- No name is bound twice. -/
theorem nodup_names (t : NameMap β) : t.names.Nodup := by
  refine t.sorted_names.imp fun hlt heq => ?_
  exact String.lt_irrefl _ (heq ▸ hlt)

/-- What is found is bound. -/
theorem find?_eq_some_iff {t : NameMap β} {k : String} {v : β} :
    t.find? k = some v ↔ (k, v) ∈ t.entries := by
  refine ⟨fun h => ?_, find?_of_mem_entries⟩
  rw [find?] at h
  generalize t.entries = l at h ⊢
  induction l with
  | nil => cases h
  | cons e l ih =>
    rw [findEntry] at h
    split at h
    · next hk =>
      cases h
      exact hk ▸ List.mem_cons_self
    · exact List.mem_cons_of_mem e (ih h)

/-- A table finds what was listed for it, if no name was listed twice. -/
theorem find?_ofList_eq_some_iff {l : List (String × β)} (hl : (l.map Prod.fst).Nodup)
    {k : String} {v : β} : (ofList l).find? k = some v ↔ (k, v) ∈ l := by
  -- what is bound before stays bound unless its name is listed
  have hfold : ∀ t : NameMap β, (l.foldl (fun t e => t.insert e.1 e.2) t).find? k = some v ↔
      (k, v) ∈ l ∨ k ∉ l.map Prod.fst ∧ t.find? k = some v := by
    induction l with
    | nil => simp
    | cons e l ih =>
      intro t
      obtain ⟨hfresh, hl⟩ := List.nodup_cons.1 hl
      rw [List.foldl_cons, ih hl, find?_insert]
      by_cases hk : k = e.1
      · subst hk
        have hmem : (e.1, v) ∉ l := fun h => hfresh (List.mem_map.2 ⟨_, h, rfl⟩)
        simp [hmem, hfresh, Prod.ext_iff, eq_comm]
      · simp [hk, Prod.ext_iff]
  rw [ofList, hfold]
  simp

/-- A table is empty if nothing is found in it. -/
theorem isEmpty_iff {t : NameMap β} : t.isEmpty = true ↔ ∀ k, t.find? k = none := by
  rw [isEmpty, List.isEmpty_iff]
  constructor
  · intro h k
    rw [find?, h]
    rfl
  · intro h
    refine List.eq_nil_iff_forall_not_mem.2 fun e he => ?_
    have hfind := find?_of_mem_entries he
    rw [h] at hfind
    cases hfind

/-- Changing the values changes what is found under each name. -/
theorem find?_filterMap {γ : Type u} (f : β → Option γ) (t : NameMap β) (k : String) :
    (t.filterMap f).find? k = (t.find? k).bind f := by
  obtain ⟨l, hl⟩ := t
  simp only [find?, filterMap]
  induction l with
  | nil => rfl
  | cons e l ih =>
    obtain ⟨j, v⟩ := e
    rw [List.pairwise_cons] at hl
    have hrest := ih hl.2
    by_cases hk : k = j
    · subst hk
      cases hf : f v with
      | some w => simp [findEntry, hf]
      | none =>
        -- the name is bound once, so nothing is found behind a dropped entry
        have hnone : findEntry k l = none := findEntry_eq_none_of_lt hl.1
        simp only [List.filterMap_cons, hf, Option.map_none, hrest, hnone, findEntry, if_true]
        exact hf.symm
    · cases hf : f v with
      | some w => simp [findEntry, hf, hk, hrest]
      | none => simp [findEntry, hf, hk, hrest]

/-- **The order makes tables canonical.** Two tables that find the same are equal. -/
theorem ext_find? {t s : NameMap β} (h : ∀ k, t.find? k = s.find? k) : t = s := by
  obtain ⟨l, hl⟩ := t
  obtain ⟨m, hm⟩ := s
  have := entries_ext hl hm h
  subst this
  rfl

/-- There is one empty table. -/
theorem isEmpty_iff_eq_empty {t : NameMap β} : t.isEmpty = true ↔ t = {} := by
  constructor
  · intro h
    exact ext_find? fun k => isEmpty_iff.1 h k
  · rintro rfl
    rfl

/-- A table is that of its own entries. -/
theorem ofList_entries (t : NameMap β) : ofList t.entries = t := by
  refine ext_find? fun k => Option.ext fun v => ?_
  have hnames : (t.entries.map Prod.fst).Nodup := t.nodup_names
  rw [find?_ofList_eq_some_iff hnames, find?_eq_some_iff]

end NameMap

/-! ## Sets of names -/

/-- A set of names, kept as a table without values. -/
structure NameSet where
  table : NameMap Unit := {}
  deriving DecidableEq, Inhabited

namespace NameSet

/-- The set without members. -/
def empty : NameSet := ⟨{}⟩

instance : EmptyCollection NameSet := ⟨empty⟩

/-- The members, in increasing order. -/
def toList (s : NameSet) : List String := s.table.names

/-- Whether a name is a member. -/
def contains (s : NameSet) (n : String) : Bool := s.table.contains n

/-- Adds a member. -/
def insert (s : NameSet) (n : String) : NameSet := ⟨s.table.insert n ()⟩

/-- Removes a member. -/
def erase (s : NameSet) (n : String) : NameSet := ⟨s.table.erase n⟩

/-- Adds every name of a list. -/
def insertAll (s : NameSet) (l : List String) : NameSet := l.foldl insert s

/-- The members of either. -/
def union (s t : NameSet) : NameSet := s.insertAll t.toList

/-- The set of the names of a list. -/
def ofList (l : List String) : NameSet := empty.insertAll l

@[simp] theorem contains_empty (n : String) : empty.contains n = false := rfl

theorem contains_insert (s : NameSet) (m n : String) :
    (s.insert m).contains n = (n == m || s.contains n) := by
  simp only [contains, insert, NameMap.contains, NameMap.find?_insert]
  by_cases h : n = m <;> simp [h]

theorem contains_insertAll (s : NameSet) (l : List String) (n : String) :
    (s.insertAll l).contains n = (s.contains n || l.contains n) := by
  induction l generalizing s with
  | nil => simp [insertAll]
  | cons m l ih =>
    have := ih (s.insert m)
    simp only [insertAll, List.foldl_cons] at this ⊢
    rw [this, contains_insert, List.contains_cons]
    cases s.contains n <;> cases n == m <;> simp

theorem contains_toList (s : NameSet) (n : String) : s.toList.contains n = s.contains n :=
  s.table.contains_names n

/-- A name is in a union when it is in a part. -/
@[simp] theorem contains_union (s t : NameSet) (n : String) :
    (s.union t).contains n = (s.contains n || t.contains n) := by
  rw [union, contains_insertAll, contains_toList]

/-- Sets with the same members are equal. -/
theorem ext_contains {s t : NameSet} (h : ∀ n, s.contains n = t.contains n) : s = t := by
  obtain ⟨s⟩ := s
  obtain ⟨t⟩ := t
  congr 1
  refine NameMap.ext_find? (fun k => ?_)
  have := h k
  simp only [contains, NameMap.contains] at this
  cases hs : s.find? k <;> cases ht : t.find? k <;> simp_all

/-- A set whose members are the names of a table lists them as the table does. -/
theorem toList_eq_names {β : Type} {s : NameSet} {t : NameMap β}
    (h : ∀ n, s.contains n = t.contains n) : s.toList = t.names := by
  have hs : s = ⟨t.filterMap fun _ => some ()⟩ := by
    refine ext_contains fun n => (h n).trans ?_
    rw [contains, NameMap.contains, NameMap.contains, NameMap.find?_filterMap]
    cases t.find? n <;> rfl
  rw [hs, toList, NameMap.names, NameMap.filterMap, List.map_filterMap]
  exact congrFun List.filterMap_eq_map' t.entries

end NameSet

end Enablement
