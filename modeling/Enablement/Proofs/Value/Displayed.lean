import Enablement.Value.Document
import Enablement.Proofs.Json.Written
import Enablement.Proofs.Value.Collected
/-!
# Values — what is displayed is read back up to what documents cannot hold

What a document cannot hold is gone when a displayed value is read: sets are arrays, numbers that
are not finite are null, types and host objects are texts, and so is every key. `Value.erase` is a
value without these. Of any value the document holds what is left of it (`ofJson_toJson_beq`); the
text holds the document if its numbers are whole and it nests within the bound (`Legible.toJson`).
-/

namespace Enablement

namespace Number

/-- Neither infinite nor not-a-number. -/
def isFinite : Number → Bool
  | .int _ => true
  | .float x => x.isFinite

theorem isFinite_of_toInt64? {n : Number} {i : Int64} (h : n.toInt64? = some i) :
    n.isFinite = true := by
  cases n with
  | int m => rfl
  | float x =>
    rw [toInt64?_eq_some_iff, exact, Binary64.exact_eq_ofRat_iff] at h
    exact h.1

theorem toJson_of_toInt64? {n : Number} {i : Int64} (h : n.toInt64? = some i) :
    n.toJson = .num (.int i.toInt) := by
  rw [toJson, canonical, h]

theorem toJson_float {x : Binary64} (h : (float x).toInt64? = none) :
    (float x).toJson = if x.isFinite then .num (.float x) else .null := by
  rw [toJson, canonical, h]

/-- The document of a number holds it exactly when it is finite. -/
theorem toJson_of_not_isFinite {n : Number} (h : n.isFinite = false) : n.toJson = .null := by
  cases hint : n.toInt64? with
  | some i =>
    rw [isFinite_of_toInt64? hint] at h
    cases h
  | none =>
    cases n with
    | int i => cases hint
    | float x =>
      have hinfinite : x.isFinite = false := h
      rw [toJson_float hint, hinfinite, if_neg nofun]

/-- **A finite number is held by its document.** -/
theorem exists_toJson_eq_num {n : Number} (h : n.isFinite = true) :
    ∃ k, n.toJson = .num k ∧ (ofJson k == n) = true := by
  cases hint : n.toInt64? with
  | some i =>
    have hfits : fitsInt64 i.toInt = true := fitsInt64_iff.2 ⟨i.le_toInt, i.toInt_lt⟩
    refine ⟨.int i.toInt, toJson_of_toInt64? hint, beq_iff_exact_eq.2 ?_⟩
    rw [ofJson, ofInt, if_pos hfits, Int64.ofInt_toInt]
    exact (toInt64?_eq_some_iff.1 hint).symm
  | none =>
    cases n with
    | int i => cases hint
    | float x =>
      have hfinite : x.isFinite = true := h
      refine ⟨.float x, ?_, beq_iff_exact_eq.2 rfl⟩
      rw [toJson_float hint, hfinite, if_pos rfl]

end Number

namespace Value

variable {v : Value} {depth : ℕ} {es : List (Value × Value)}

/-! ## What is left -/

/-- The text that stands for a key. -/
def keyText : Value → String
  | .string s => s
  | k => k.display

mutual

/-- What a document holds of a value. -/
def erase : Value → Value
  | .null => .null
  | .bool b => .bool b
  | .number n => if n.isFinite then .number n else .null
  | .string s => .string s
  | .array items => .array (eraseItems items)
  | .set members => .array (eraseItems members)
  | .object entries => objectOf (eraseEntries entries)
  | .type name => .string ("<type " ++ name ++ ">")
  | .host ref => .string ("<" ++ ref.typeName ++ ">")
  | .undefined => .string "<undefined>"

def eraseItems : List Value → List Value
  | [] => []
  | v :: rest => erase v :: eraseItems rest

def eraseEntries : List (Value × Value) → List (Value × Value)
  | [] => []
  | (k, v) :: rest => (.string k.keyText, erase v) :: eraseEntries rest

end

/-- A value whose numbers are whole and of 64 bits, or not finite, and in which at most `depth`
arrays, sets and objects are inside one another. Of keys nothing is asked: they are texts of their
own. -/
inductive Legible : (depth : ℕ) → Value → Prop
  | null {depth : ℕ} : Legible depth .null
  | bool {depth : ℕ} (b : Bool) : Legible depth (.bool b)
  | number {depth : ℕ} {n : Number} (h : n.toInt64?.isSome = true ∨ n.isFinite = false) :
    Legible depth (.number n)
  | string {depth : ℕ} (s : String) : Legible depth (.string s)
  | array {depth : ℕ} {items : List Value} (h : ∀ v ∈ items, Legible depth v) :
    Legible (depth + 1) (.array items)
  | set {depth : ℕ} {members : List Value} (h : ∀ v ∈ members, Legible depth v) :
    Legible (depth + 1) (.set members)
  | object {depth : ℕ} {entries : List (Value × Value)} (h : ∀ e ∈ entries, Legible depth e.2) :
    Legible (depth + 1) (.object entries)
  | type {depth : ℕ} (name : String) : Legible depth (.type name)
  | host {depth : ℕ} (ref : HostRef) : Legible depth (.host ref)
  | undefined {depth : ℕ} : Legible depth .undefined

/-- A value that a document holds as it is: no sets, types, host objects or undefined values in it,
all numbers finite, and objects with increasing keys, all of them strings. -/
inductive Plain : Value → Prop
  | null : Plain .null
  | bool (b : Bool) : Plain (.bool b)
  | number {n : Number} (h : n.isFinite = true) : Plain (.number n)
  | string (s : String) : Plain (.string s)
  | array {items : List Value} (h : ∀ v ∈ items, Plain v) : Plain (.array items)
  | object {entries : List (Value × Value)} (hincreasing : Increasing (entries.map (·.1)))
    (hkeys : ∀ e ∈ entries, ∃ s, e.1 = .string s) (h : ∀ e ∈ entries, Plain e.2) :
    Plain (.object entries)

/-! ## Lists in documents -/

theorem itemsToJson_eq (vs : List Value) : itemsToJson vs = vs.map toJson := by
  induction vs with
  | nil => rfl
  | cons v vs ih => rw [itemsToJson, List.map_cons, ih]

theorem entriesToJson_eq (es : List (Value × Value)) :
    entriesToJson es = es.map fun e => (e.1.keyText, e.2.toJson) := by
  induction es with
  | nil => rfl
  | cons e es ih =>
    obtain ⟨k, v⟩ := e
    cases k <;> rw [entriesToJson, List.map_cons, ih] <;> first | rfl | exact nofun

theorem itemsOfJson_eq (items : List Json) : itemsOfJson items = items.map ofJson := by
  induction items with
  | nil => rfl
  | cons j items ih => rw [itemsOfJson, List.map_cons, ih]

theorem entriesOfJson_eq (members : List (String × Json)) :
    entriesOfJson members = members.map fun m => (.string m.1, ofJson m.2) := by
  induction members with
  | nil => rfl
  | cons m members ih => rw [entriesOfJson, List.map_cons, ih]

theorem eraseItems_eq (vs : List Value) : eraseItems vs = vs.map erase := by
  induction vs with
  | nil => rfl
  | cons v vs ih => rw [eraseItems, List.map_cons, ih]

theorem eraseEntries_eq (es : List (Value × Value)) :
    eraseEntries es = es.map fun e => (.string e.1.keyText, e.2.erase) := by
  induction es with
  | nil => rfl
  | cons e es ih => rw [eraseEntries, List.map_cons, ih]

/-! ## What the text holds -/

/-- **A legible value has a legible document.** -/
theorem Legible.toJson (h : Legible depth v) : Json.Legible depth v.toJson := by
  induction h with
  | null => exact .null
  | bool b => exact .bool b
  | @number _ n hn =>
    rw [Value.toJson]
    rcases hn with hint | hinfinite
    · obtain ⟨i, hi⟩ := Option.isSome_iff_exists.1 hint
      have hlow := i.le_toInt
      have hhigh := i.toInt_lt
      rw [Number.toJson_of_toInt64? hi]
      refine .int hlow (hhigh.le.trans ?_)
      decide
    · rw [Number.toJson_of_not_isFinite hinfinite]
      exact .null
  | string s => exact .str s
  | array _ ih | set _ ih =>
    rw [Value.toJson, itemsToJson_eq]
    exact .arr (List.forall_mem_map.2 ih)
  | object _ ih =>
    rw [Value.toJson, entriesToJson_eq]
    exact .obj (List.forall_mem_map.2 ih)
  | type name => exact .str _
  | host ref => exact .str _
  | undefined => exact .str _

/-! ## What the document holds -/

/-- The last value for a key, where values are given for entries. -/
theorem latest?_map (k : Value) (key val : Value × Value → Value) (es : List (Value × Value)) :
    latest? k (es.map fun e => (key e, val e)) =
      (es.reverse.find? fun e => k == key e).map val := by
  rw [latest?, ← List.map_reverse, List.find?_map, Option.map_map]
  rfl

/-- Objects with the same keys are equal if the values of their entries are. -/
theorem objectOf_map_beq {key val val' : Value × Value → Value}
    (h : ∀ e ∈ es, (val e == val' e) = true) :
    (objectOf (es.map fun e => (key e, val e)) == objectOf (es.map fun e => (key e, val' e))) =
      true := by
  refine sameEntries_collectedEntries_iff.2 fun k => ?_
  rw [latest?_map, latest?_map]
  cases hfound : es.reverse.find? fun e => k == key e with
  | none => rfl
  | some e => exact h e (List.mem_reverse.1 (List.mem_of_find?_eq_some hfound))

theorem sameItems_map {f g : Value → Value} {vs : List Value}
    (h : ∀ v ∈ vs, (f v == g v) = true) : sameItems (vs.map f) (vs.map g) = true := by
  rw [sameItems_iff, List.forall₂_map_left_iff, List.forall₂_map_right_iff, List.forall₂_same]
  exact h

/-- **The document of a value holds what is left of it**, whatever the value. -/
theorem ofJson_toJson_beq (v : Value) : (ofJson v.toJson == v.erase) = true := by
  induction v using inductionOn with
  | step v ih =>
    cases v with
    | number n =>
      rw [toJson, erase]
      cases hfinite : n.isFinite with
      | true =>
        obtain ⟨k, hk, hbeq⟩ := Number.exists_toJson_eq_num hfinite
        rw [hk, ofJson]
        exact hbeq
      | false =>
        rw [Number.toJson_of_not_isFinite hfinite]
        rfl
    | array items | set items =>
      rw [toJson, erase, ofJson, itemsToJson_eq, itemsOfJson_eq, List.map_map, eraseItems_eq]
      exact sameItems_map ih
    | object entries =>
      rw [toJson, erase, ofJson, entriesToJson_eq, entriesOfJson_eq, List.map_map, eraseEntries_eq]
      -- the keys are the same texts on both sides, and collected in the same order
      refine objectOf_map_beq fun e he => ih e.2 ?_
      exact List.mem_flatMap.2 ⟨e, he, by simp⟩
    | _ => exact BEq.rfl

/-! ## What is all there -/

/-- An entry that comes behind all others is put behind them. -/
theorem insertEntry_of_forall_gt {k w : Value} (h : ∀ e ∈ es, compare k e.1 = .gt) :
    insertEntry k w es = es ++ [(k, w)] := by
  induction es with
  | nil => rfl
  | cons e es ih =>
    rw [insertEntry, h e List.mem_cons_self]
    exact congrArg (e :: ·) (ih fun e' he' => h e' (List.mem_cons_of_mem e he'))

/-- Increasing entries are collected as they are. -/
theorem collectedEntries_of_increasing (h : Increasing (es.map (·.1))) :
    collectedEntries es = es := by
  induction es using List.reverseRecOn with
  | nil => rfl
  | append_singleton es e ih =>
    rw [List.map_append, Increasing, List.pairwise_append] at h
    obtain ⟨hes, -, hlast⟩ := h
    have hbehind : ∀ e' ∈ es, compare e.1 e'.1 = .gt := by
      intro e' he'
      exact compare_gt_of_lt (hlast e'.1 (List.mem_map_of_mem he') e.1 List.mem_cons_self)
    rw [collectedEntries, List.foldl_append, ← collectedEntries, ih hes]
    exact insertEntry_of_forall_gt hbehind

/-- **Nothing of a plain value is gone.** -/
theorem Plain.erase_eq (h : Plain v) : v.erase = v := by
  induction h with
  | number hfinite => rw [erase, hfinite, if_pos rfl]
  | array _ ih => rw [erase, eraseItems_eq, List.map_congr_left ih, List.map_id']
  | @object entries hincreasing hkeys _ ih =>
    -- each entry stays, and increasing keys are collected as they are
    have hsame : ∀ e ∈ entries, (Value.string e.1.keyText, e.2.erase) = e := by
      intro e he
      obtain ⟨s, hs⟩ := hkeys e he
      rw [ih e he, hs, keyText, ← hs]
    rw [erase, eraseEntries_eq, List.map_congr_left hsame, List.map_id']
    exact congrArg Value.object (collectedEntries_of_increasing hincreasing)
  | _ => rfl

/-! ## Reading what is displayed -/

/-- **Displayed values are read back up to what documents cannot hold.** A value of whole numbers of
64 bits, and of numbers that are not finite, that nests within the bound is read back from its text,
as what is left of it. Of an object is left an object with a text for each key, and where texts meet
the value of the later entry stands. Of plain values all is left. -/
theorem display_reads_back_erased :
    (∀ v : Value, v.Legible Json.maxDepth →
      ∃ w, read? v.display = some w ∧ (w == v.erase) = true) ∧
    (∀ es : List (Value × Value), ∃ fs, (object es).erase = .object fs ∧
      Increasing (fs.map (·.1)) ∧
      ∀ k, get? k fs = latest? k (es.map fun e => (.string e.1.keyText, e.2.erase))) ∧
    (∀ v : Value, v.Plain → v.erase = v) := by
  refine ⟨fun v hv => ?read, fun es => ?object, fun v hv => hv.erase_eq⟩
  case read =>
    refine ⟨ofJson v.toJson, ?_, ofJson_toJson_beq v⟩
    rw [read?, display, Json.read?_text hv.toJson, Option.map_some]
  case object =>
    refine ⟨collectedEntries (eraseEntries es), by rw [erase]; rfl, ?_, fun k => ?_⟩
    · rw [map_fst_collectedEntries]
      exact (represents_collected _).increasing
    · rw [get?_collectedEntries, eraseEntries_eq]

/-- A number and its text as keys of one object: the value under the text is read back. -/
theorem display_reads_back_erased_meeting : ∃ w,
    read? (display (object [(.number (.int 1), .set [.null]),
      (.string "1", .array [.number (.int Int64.minValue),
        .number (.float ⟨0x7FF0000000000000⟩)])]))
      = some w ∧
    (w == object [(.string "1", .array [.number (.int Int64.minValue), .null])]) = true := by
  obtain ⟨hread, -, -⟩ := display_reads_back_erased
  have hlegible : (object [(.number (.int 1), .set [.null]), (.string "1",
      .array [.number (.int Int64.minValue), .number (.float ⟨0x7FF0000000000000⟩)])]).Legible
        Json.maxDepth := by
    refine .object ?_
    simp only [List.forall_mem_cons, List.not_mem_nil, false_imp_iff, implies_true, and_true]
    refine ⟨.set ?_, .array ?_⟩
    · simp only [List.forall_mem_cons, List.not_mem_nil, false_imp_iff, implies_true, and_true]
      exact .null
    · simp only [List.forall_mem_cons, List.not_mem_nil, false_imp_iff, implies_true, and_true]
      exact ⟨.number (.inl rfl), .number (.inr rfl)⟩
  obtain ⟨w, hw, hleft⟩ := hread _ hlegible
  exact ⟨w, hw, BEq.trans hleft (by decide +kernel)⟩

end Value

end Enablement
