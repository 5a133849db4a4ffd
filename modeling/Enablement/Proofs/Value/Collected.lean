import Enablement.Proofs.Value.Order
import Mathlib.Data.List.Induction
/-!
# Values — what is collected into sets and objects

A set or an object is collected by inserting what comes, in the order of values. What comes out is
strictly increasing and holds one value of each class of equal values that came, and looking in it
in order finds what came and nothing else. It is determined by the classes, for an object by the
last value under each key, and so the order and the repetitions of what came leave no trace.
-/

namespace Enablement.Value

variable {k l v w : Value} {vs ws members : List Value} {es fs entries : List (Value × Value)}

/-- Each value comes before the next. -/
def Increasing (members : List Value) : Prop :=
  members.Pairwise fun a b => compare a b = .lt

/-- Whether a value is among ordered members: the search ends where greater members begin. -/
def contains (k : Value) : List Value → Bool
  | [] => false
  | m :: rest =>
    match compare k m with
    | .lt => false
    | .eq => true
    | .gt => contains k rest

/-- The value under a key of ordered entries: the search ends where greater keys begin. -/
def get? (k : Value) : List (Value × Value) → Option Value
  | [] => none
  | (l, v) :: rest =>
    match compare k l with
    | .lt => none
    | .eq => some v
    | .gt => get? k rest

/-- The last of the values that are given for a key. -/
def latest? (k : Value) (entries : List (Value × Value)) : Option Value :=
  (entries.reverse.find? fun e => k == e.1).map (·.2)

/-- The members that a collection of values ends with. -/
def collected (vs : List Value) : List Value := vs.foldl (fun s v => insertMember v s) []

/-- The entries that a collection of entries ends with. -/
def collectedEntries (es : List (Value × Value)) : List (Value × Value) :=
  es.foldl (fun o e => insertEntry e.1 e.2 o) []

theorem compare_eq_iff : compare v w = .eq ↔ (v == w) = true := compare_eq_iff_same v w

theorem compare_lt_of_gt (h : compare v w = .gt) : compare w v = .lt := by
  rw [compare_swap, h]
  rfl

theorem compare_gt_of_lt (h : compare v w = .lt) : compare w v = .gt := by
  rw [compare_swap, h]
  rfl

theorem not_beq_of_lt (h : compare v w = .lt) : (v == w) = false := by
  rw [← Bool.not_eq_true, ← compare_eq_iff, h]
  exact nofun

/-! ## Inserting a member -/

theorem mem_insertMember (h : w ∈ insertMember v members) : w = v ∨ w ∈ members := by
  induction members with
  | nil => exact .inl (List.mem_singleton.1 h)
  | cons m rest ih =>
    rw [insertMember] at h
    split at h
    · exact List.mem_cons.1 h
    · exact .inr h
    · rcases List.mem_cons.1 h with rfl | h
      · exact .inr List.mem_cons_self
      · exact (ih h).imp_right (List.mem_cons_of_mem m)

theorem subset_insertMember (v : Value) (members : List Value) :
    members ⊆ insertMember v members := by
  induction members with
  | nil => exact List.nil_subset _
  | cons m rest ih =>
    rw [insertMember]
    split
    · exact List.subset_cons_self v _
    · exact List.Subset.refl _
    · exact List.cons_subset_cons m ih

/-- What is inserted is there, or a member equal to it. -/
theorem exists_beq_mem_insertMember (v : Value) (members : List Value) :
    ∃ m ∈ insertMember v members, (m == v) = true := by
  induction members with
  | nil => exact ⟨v, List.mem_cons_self, beq_self_eq_true v⟩
  | cons m rest ih =>
    rw [insertMember]
    split
    · exact ⟨v, List.mem_cons_self, beq_self_eq_true v⟩
    · next h => exact ⟨m, List.mem_cons_self, BEq.symm (compare_eq_iff.1 h)⟩
    · obtain ⟨n, hn, hnv⟩ := ih
      exact ⟨n, List.mem_cons_of_mem m hn, hnv⟩

/-- **Inserting keeps the members increasing.** -/
theorem Increasing.insertMember (h : Increasing members) : Increasing (insertMember v members) := by
  induction members with
  | nil => exact List.pairwise_singleton _ v
  | cons m rest ih =>
    obtain ⟨hhead, htail⟩ := List.pairwise_cons.1 h
    rw [Value.insertMember]
    split
    · next hlt =>
      refine List.pairwise_cons.2 ⟨fun x hx => ?_, h⟩
      rcases List.mem_cons.1 hx with rfl | hx
      · exact hlt
      · exact Std.TransCmp.lt_trans hlt (hhead x hx)
    · exact h
    · next hgt =>
      refine List.pairwise_cons.2 ⟨fun x hx => ?_, ih htail⟩
      rcases mem_insertMember hx with rfl | hx
      · exact compare_lt_of_gt hgt
      · exact hhead x hx

/-! ## Members as representatives -/

/-- What a collection holds of the values that came: in increasing order, one of each class. -/
structure Represents (members vs : List Value) : Prop where
  increasing : Increasing members
  subset : members ⊆ vs
  exists_beq : ∀ v ∈ vs, ∃ m ∈ members, (m == v) = true

/-- Each value that comes keeps the members representative. -/
theorem Represents.insertMember (h : Represents members vs) (v : Value) :
    Represents (insertMember v members) (vs ++ [v]) where
  increasing := h.increasing.insertMember
  subset x hx := by
    rcases mem_insertMember hx with rfl | hx
    · exact List.mem_append_right vs List.mem_cons_self
    · exact List.mem_append_left [v] (h.subset hx)
  exists_beq x hx := by
    rcases List.mem_append.1 hx with hx | hx
    · obtain ⟨m, hm, hmx⟩ := h.exists_beq x hx
      exact ⟨m, subset_insertMember v members hm, hmx⟩
    · rw [List.mem_singleton.1 hx]
      exact exists_beq_mem_insertMember v members

/-- **What is collected represents what came.** -/
theorem represents_collected (vs : List Value) : Represents (collected vs) vs := by
  induction vs using List.reverseRecOn with
  | nil => exact ⟨List.Pairwise.nil, List.Subset.refl _, nofun⟩
  | append_singleton vs v ih =>
    rw [collected, List.foldl_append]
    exact ih.insertMember v

/-- Equal members of an increasing list are one. -/
theorem Increasing.eq_of_beq (h : Increasing members) (hv : v ∈ members) (hw : w ∈ members)
    (hbeq : (v == w) = true) : v = w := by
  induction members with
  | nil => cases hv
  | cons m rest ih =>
    obtain ⟨hhead, htail⟩ := List.pairwise_cons.1 h
    rcases List.mem_cons.1 hv with rfl | hvrest <;> rcases List.mem_cons.1 hw with rfl | hwrest
    · rfl
    · rw [not_beq_of_lt (hhead w hwrest)] at hbeq
      cases hbeq
    · rw [BEq.comm, not_beq_of_lt (hhead v hvrest)] at hbeq
      cases hbeq
    · exact ih htail hvrest hwrest

/-- **A search in order finds a value exactly when an equal one is there.** -/
theorem Increasing.contains_iff (h : Increasing members) :
    contains k members = true ↔ ∃ m ∈ members, (k == m) = true := by
  induction members with
  | nil => exact iff_of_false Bool.false_ne_true nofun
  | cons m rest ih =>
    obtain ⟨hhead, htail⟩ := List.pairwise_cons.1 h
    rw [contains]
    split
    · next hlt =>
      refine iff_of_false Bool.false_ne_true ?_
      rintro ⟨n, hn, hkn⟩
      rcases List.mem_cons.1 hn with rfl | hn
      · rw [not_beq_of_lt hlt] at hkn
        cases hkn
      · rw [not_beq_of_lt (Std.TransCmp.lt_trans hlt (hhead n hn))] at hkn
        cases hkn
    · next heq => exact iff_of_true rfl ⟨m, List.mem_cons_self, compare_eq_iff.1 heq⟩
    · next hgt =>
      rw [ih htail]
      simp only [List.mem_cons, exists_eq_or_imp, BEq.comm (a := k) (b := m),
        not_beq_of_lt (compare_lt_of_gt hgt), Bool.false_eq_true, false_or]

/-- There is exactly one member for each value that came. -/
theorem Represents.existsUnique (h : Represents members vs) (hv : v ∈ vs) :
    ∃! m, m ∈ members ∧ (m == v) = true := by
  obtain ⟨m, hm, hmv⟩ := h.exists_beq v hv
  refine ⟨m, ⟨hm, hmv⟩, ?_⟩
  rintro n ⟨hn, hnv⟩
  exact h.increasing.eq_of_beq hn hm (BEq.trans hnv (BEq.symm hmv))

/-- Whether what came holds an equal value can be looked up in what was collected. -/
theorem Represents.contains_iff (h : Represents members vs) :
    contains k members = true ↔ ∃ v ∈ vs, (k == v) = true := by
  rw [h.increasing.contains_iff]
  constructor
  · rintro ⟨m, hm, hkm⟩
    exact ⟨m, h.subset hm, hkm⟩
  · rintro ⟨v, hv, hkv⟩
    obtain ⟨m, hm, hmv⟩ := h.exists_beq v hv
    exact ⟨m, hm, BEq.trans hkv (BEq.symm hmv)⟩

theorem contains_of_forall_lt (h : ∀ m ∈ members, compare k m = .lt) :
    contains k members = false := by
  cases members with
  | nil => rfl
  | cons m rest => rw [contains, h m List.mem_cons_self]

theorem contains_cons_self (v : Value) (rest : List Value) : contains v (v :: rest) = true := by
  rw [contains, compare_self]

/-- **Increasing members are determined by what is found among them.** -/
theorem Increasing.sameItems (hv : Increasing vs) (hw : Increasing ws)
    (h : ∀ k, contains k vs = contains k ws) : sameItems vs ws = true := by
  induction vs generalizing ws with
  | nil =>
    cases ws with
    | nil => rfl
    | cons w ws => cases (h w).trans (contains_cons_self w ws)
  | cons v vs ih =>
    cases ws with
    | nil => cases (h v).symm.trans (contains_cons_self v vs)
    | cons w ws =>
      obtain ⟨hvhead, hvtail⟩ := List.pairwise_cons.1 hv
      obtain ⟨hwhead, hwtail⟩ := List.pairwise_cons.1 hw
      -- a head that came first would not be found on the other side
      have hvw : compare v w = .eq := by
        cases hcmp : compare v w with
        | eq => rfl
        | lt =>
          have hfound := (h v).symm.trans (contains_cons_self v vs)
          rw [contains, hcmp] at hfound
          cases hfound
        | gt =>
          have hfound := (h w).trans (contains_cons_self w ws)
          rw [contains, compare_lt_of_gt hcmp] at hfound
          cases hfound
      refine Bool.and_eq_true_iff.2 ⟨compare_eq_iff.1 hvw, ih hvtail hwtail fun k => ?_⟩
      have hkw : compare k v = compare k w := Std.TransCmp.congr_right hvw
      have hsmaller (hle : (compare k v).isLE = true) : contains k vs = contains k ws := by
        rw [contains_of_forall_lt fun m hm => Std.TransCmp.lt_of_isLE_of_lt hle (hvhead m hm),
          contains_of_forall_lt fun m hm =>
            Std.TransCmp.lt_of_isLE_of_lt (hkw ▸ hle) (hwhead m hm)]
      cases hkv : compare k v with
      | lt | eq => exact hsmaller (by rw [hkv]; rfl)
      | gt =>
        have hfound := h k
        rw [contains, contains, ← hkw, hkv] at hfound
        exact hfound

/-! ## Entries -/

/-- Putting an entry inserts its key among the keys. -/
theorem map_fst_insertEntry (k v : Value) (entries : List (Value × Value)) :
    (insertEntry k v entries).map (·.1) = insertMember k (entries.map (·.1)) := by
  induction entries with
  | nil => rfl
  | cons e rest ih =>
    rw [insertEntry, List.map_cons, insertMember]
    split
    · rfl
    · rfl
    · rw [List.map_cons, ih]

/-- The keys of an object are the set of the keys that came. -/
theorem map_fst_collectedEntries (es : List (Value × Value)) :
    (collectedEntries es).map (·.1) = collected (es.map (·.1)) := by
  induction es using List.reverseRecOn with
  | nil => rfl
  | append_singleton es e ih =>
    rw [collectedEntries, List.foldl_append, List.map_append, collected, List.foldl_append]
    exact (map_fst_insertEntry e.1 e.2 _).trans (congrArg (insertMember e.1) ih)

/-- **What is put is found under the keys that equal its own**, and nothing else changes. -/
theorem get?_insertEntry (k l v : Value) (entries : List (Value × Value)) :
    get? k (insertEntry l v entries) = if k == l then some v else get? k entries := by
  have hfirst (rest : List (Value × Value)) (hrest : compare k l = .lt → get? k rest = none) :
      get? k ((l, v) :: rest) = if k == l then some v else get? k rest := by
    rw [get?]
    cases hkl : compare k l with
    | lt => rw [not_beq_of_lt hkl, if_neg Bool.false_ne_true, hrest hkl]
    | eq => rw [compare_eq_iff.1 hkl, if_pos rfl]
    | gt => rw [BEq.comm, not_beq_of_lt (compare_lt_of_gt hkl), if_neg Bool.false_ne_true]
  induction entries with
  | nil => exact hfirst [] fun _ => rfl
  | cons e rest ih =>
    obtain ⟨m, w⟩ := e
    rw [insertEntry]
    cases hlm : compare l m with
    | lt =>
      refine hfirst _ fun hkl => ?_
      rw [get?, Std.TransCmp.lt_trans hkl hlm]
    | eq =>
      dsimp only
      have hkm : compare k l = compare k m := Std.TransCmp.congr_right hlm
      rw [get?, get?, ← hkm]
      cases hkl : compare k l with
      | lt => rw [not_beq_of_lt hkl, if_neg Bool.false_ne_true]
      | eq => rw [compare_eq_iff.1 hkl, if_pos rfl]
      | gt => rw [BEq.comm, not_beq_of_lt (compare_lt_of_gt hkl), if_neg Bool.false_ne_true]
    | gt =>
      dsimp only
      rw [get?, get?, ih]
      cases hkm : compare k m with
      | lt | eq =>
        have hkl : compare k l = .lt :=
          Std.TransCmp.lt_of_isLE_of_lt (by rw [hkm]; rfl) (compare_lt_of_gt hlm)
        rw [not_beq_of_lt hkl]
        rfl
      | gt => rfl

/-- **Looking up a key of a collected object gives the last value that came for it.** -/
theorem get?_collectedEntries (k : Value) (es : List (Value × Value)) :
    get? k (collectedEntries es) = latest? k es := by
  induction es using List.reverseRecOn with
  | nil => rfl
  | append_singleton es e ih =>
    rw [collectedEntries, List.foldl_append, latest?, List.reverse_append, List.reverse_singleton,
      List.singleton_append, List.find?_cons]
    refine (get?_insertEntry k e.1 e.2 _).trans ?_
    cases k == e.1 with
    | true => rfl
    | false => exact ih

/-- A key is found exactly when it is found among the keys. -/
theorem isSome_get? (k : Value) (entries : List (Value × Value)) :
    (get? k entries).isSome = contains k (entries.map (·.1)) := by
  induction entries with
  | nil => rfl
  | cons e rest ih =>
    rw [get?, List.map_cons, contains]
    cases compare k e.1 with
    | lt | eq => rfl
    | gt => exact ih

/-- Increasing entries are determined by their keys and by what is found under each. -/
theorem Increasing.sameEntries (hes : Increasing (es.map (·.1)))
    (hkeys : Value.sameItems (es.map (·.1)) (fs.map (·.1)) = true)
    (h : ∀ k ∈ es.map (·.1), (get? k es == get? k fs) = true) : sameEntries es fs = true := by
  induction es generalizing fs with
  | nil =>
    cases fs with
    | nil => rfl
    | cons f fs => cases hkeys
  | cons e es ih =>
    cases fs with
    | nil => cases hkeys
    | cons f fs =>
      obtain ⟨k, v⟩ := e
      obtain ⟨l, w⟩ := f
      obtain ⟨hkl, hkeys⟩ := Bool.and_eq_true_iff.1 hkeys
      obtain ⟨hhead, htail⟩ := List.pairwise_cons.1 hes
      have hvw : (v == w) = true := by
        have hfound := h k List.mem_cons_self
        rw [get?, get?, compare_self, (compare_eq_iff_same k l).2 hkl]
          at hfound
        exact hfound
      refine Bool.and_eq_true_iff.2 ⟨Bool.and_eq_true_iff.2 ⟨hkl, hvw⟩,
        ih htail hkeys fun m hm => ?_⟩
      have hmk : compare m k = .gt := compare_gt_of_lt (hhead m hm)
      have hml : compare m l = .gt :=
        (Std.TransCmp.congr_right ((compare_eq_iff_same k l).2 hkl)).symm.trans hmk
      have hfound := h m (List.mem_cons_of_mem k hm)
      rw [get?, get?, hmk, hml] at hfound
      exact hfound

/-! ## Equality -/

/-- The same is found among equal members. -/
theorem contains_congr (h : sameItems vs ws = true) (k : Value) :
    contains k vs = contains k ws := by
  have hsame := sameItems_iff.1 h
  clear h
  induction hsame with
  | nil => rfl
  | @cons v w vs ws hvw _ ih =>
    have hcmp : compare k v = compare k w := Std.TransCmp.congr_right (compare_eq_iff.2 hvw)
    rw [contains, contains, hcmp, ih]

/-- Equal values are found in equal entries. -/
theorem get?_congr (h : sameEntries es fs = true) (k : Value) :
    (get? k es == get? k fs) = true := by
  induction es generalizing fs with
  | nil =>
    cases fs with
    | nil => rfl
    | cons f fs => cases h
  | cons e es ih =>
    cases fs with
    | nil => cases h
    | cons f fs =>
      obtain ⟨hhead, htail⟩ := Bool.and_eq_true_iff.1 h
      obtain ⟨hkey, hvalue⟩ := Bool.and_eq_true_iff.1 hhead
      have hcmp : compare k e.1 = compare k f.1 :=
        Std.TransCmp.congr_right ((compare_eq_iff_same e.1 f.1).2 hkey)
      rw [get?, get?, hcmp]
      cases compare k f.1 with
      | lt => rfl
      | eq => exact hvalue
      | gt => exact ih htail

/-- **Sets are equal exactly when they are collected from the same classes of values.** -/
theorem sameItems_collected_iff : sameItems (collected vs) (collected ws) = true ↔
    ∀ k, (∃ v ∈ vs, (k == v) = true) ↔ ∃ w ∈ ws, (k == w) = true := by
  have hvs := represents_collected vs
  have hws := represents_collected ws
  constructor
  · intro h k
    rw [← hvs.contains_iff, ← hws.contains_iff, contains_congr h]
  · intro h
    refine hvs.increasing.sameItems hws.increasing fun k => Bool.eq_iff_iff.2 ?_
    rw [hvs.contains_iff, hws.contains_iff]
    exact h k

theorem isSome_eq_of_beq {a b : Option Value} (h : (a == b) = true) : a.isSome = b.isSome := by
  cases a <;> cases b <;> first | rfl | cases h

/-- **Objects are equal exactly when the last values that came for each key are.** -/
theorem sameEntries_collectedEntries_iff :
    sameEntries (collectedEntries es) (collectedEntries fs) = true ↔
      ∀ k, (latest? k es == latest? k fs) = true := by
  have hkeys (es : List (Value × Value)) : Increasing ((collectedEntries es).map (·.1)) := by
    rw [map_fst_collectedEntries]
    exact (represents_collected _).increasing
  simp only [← get?_collectedEntries]
  constructor
  · exact get?_congr
  · intro h
    refine (hkeys es).sameEntries ((hkeys es).sameItems (hkeys fs) fun k => ?_) fun k _ => h k
    rw [← isSome_get?, ← isSome_get?]
    exact isSome_eq_of_beq (h k)

/-! ## The laws together -/

/-- **Values are totally ordered, as equality, hashing and collecting need it.** Comparing the other
way round gives the reverse; comparing along a chain gives what its steps give; comparison finds
equal what is equal; and equal values give the same atoms to a hasher. A set is strictly increasing,
consists of values that came and has exactly one for each that came; it depends on the classes of
equal values that came only, and a search in it finds these. The keys of an object are such a set,
and under each key the last value that came for it is found. -/
theorem compare_total_consistent :
    (∀ a b, compare b a = (compare a b).swap) ∧
    (∀ a b c, (compare a b).isLE = true → (compare b c).isLE = true →
      compare a c = (compare a b).then (compare b c)) ∧
    (∀ a b, compare a b = .eq ↔ (a == b) = true) ∧
    (∀ a b : Value, (a == b) = true → a.feed = b.feed) ∧
    (∀ vs, ∃ members, setOf vs = .set members ∧ Increasing members ∧ members ⊆ vs ∧
      (∀ v ∈ vs, ∃! m, m ∈ members ∧ (m == v) = true) ∧
      ∀ k, contains k members = true ↔ ∃ v ∈ vs, (k == v) = true) ∧
    (∀ vs ws, (setOf vs == setOf ws) = true ↔
      ∀ k, (∃ v ∈ vs, (k == v) = true) ↔ ∃ w ∈ ws, (k == w) = true) ∧
    (∀ es, ∃ entries, objectOf es = .object entries ∧
      setOf (es.map (·.1)) = .set (entries.map (·.1)) ∧
      ∀ k, get? k entries = latest? k es ∧
        ((get? k entries).isSome = true ↔ ∃ e ∈ es, (k == e.1) = true)) ∧
    (∀ es fs, (objectOf es == objectOf fs) = true ↔
      ∀ k, (latest? k es == latest? k fs) = true) := by
  refine ⟨compare_swap, compare_composes, compare_eq_iff_same, fun _ _ => feed_congr,
    fun vs => ?set, fun _ _ => sameItems_collected_iff, fun es => ?object,
    fun _ _ => sameEntries_collectedEntries_iff⟩
  case set =>
    have h := represents_collected vs
    exact ⟨_, rfl, h.increasing, h.subset, fun v hv => h.existsUnique hv, fun k => h.contains_iff⟩
  case object =>
    have hkeys := map_fst_collectedEntries es
    refine ⟨_, rfl, congrArg Value.set hkeys.symm, fun k => ⟨get?_collectedEntries k es, ?_⟩⟩
    change (get? k (collectedEntries es)).isSome = true ↔ _
    rw [isSome_get?, hkeys, (represents_collected _).contains_iff]
    simp only [List.mem_map, exists_exists_and_eq_and]

/-- Lists of three give the same atoms whether it is written with a point or not. -/
theorem compare_total_consistent_point :
    (array [.number (.float ⟨0x4008000000000000⟩)]).feed = (array [.number (.int 3)]).feed := by
  obtain ⟨-, -, -, hfeed, -⟩ := compare_total_consistent
  exact hfeed _ _ (by decide)

example : (setOf [.array [.number (.int 3)], .null, .array [.number (.float ⟨0x4008000000000000⟩)]]
    == setOf [.array [.number (.int 3)], .null]) = true := by decide

end Enablement.Value
