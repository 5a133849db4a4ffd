import Enablement.Proofs.Json.Tokens
/-!
# Document text — what is written is read back

A document that nests within the bound and whose numbers are whole and of 64 bits is read back from
its compact text (`read?_text`). A value is read in front of any text that can follow it, so that
items and members are read one after another; the bound goes down by one with each bracket.
-/

namespace Enablement.Json

open Digits

variable {item : Reader Json} {depth fuel : ℕ} {j : Json} {items : List Json}
  {members : List (String × Json)} {rest : List Char}

/-- A document of whole numbers of 64 bits in which at most `depth` arrays and objects are inside
one another. -/
inductive Legible : (depth : ℕ) → Json → Prop
  | null {depth : ℕ} : Legible depth .null
  | bool {depth : ℕ} (b : Bool) : Legible depth (.bool b)
  | int {depth : ℕ} {i : ℤ} (hlow : -(pow2 63 : ℤ) ≤ i) (hhigh : i ≤ maxSignificand) :
    Legible depth (.num (.int i))
  | str {depth : ℕ} (s : String) : Legible depth (.str s)
  | arr {depth : ℕ} {items : List Json} (h : ∀ x ∈ items, Legible depth x) :
    Legible (depth + 1) (.arr items)
  | obj {depth : ℕ} {members : List (String × Json)} (h : ∀ m ∈ members, Legible depth m.2) :
    Legible (depth + 1) (.obj members)

/-- A reader reads a document in front of whatever can follow it. -/
def Rereads (item : Reader Json) (j : Json) : Prop :=
  ∀ rest, Stops rest → item (j.render ++ rest) = some (j, rest)

/-! ## Nesting -/

mutual

/-- How many arrays and objects are inside one another in a document. -/
def nesting : Json → ℕ
  | .arr items => nestingOfItems items + 1
  | .obj members => nestingOfMembers members + 1
  | _ => 0

def nestingOfItems : List Json → ℕ
  | [] => 0
  | x :: rest => max (nesting x) (nestingOfItems rest)

def nestingOfMembers : List (String × Json) → ℕ
  | [] => 0
  | (_, v) :: rest => max (nesting v) (nestingOfMembers rest)

end

theorem nesting_le_of_mem_items {x : Json} (h : x ∈ items) : x.nesting ≤ nestingOfItems items := by
  induction items with
  | nil => cases h
  | cons y items ih =>
    rw [nestingOfItems]
    obtain rfl | hx := List.mem_cons.1 h
    · exact Nat.le_max_left _ _
    · exact Nat.le_trans (ih hx) (Nat.le_max_right _ _)

theorem nesting_le_of_mem_members {m : String × Json} (h : m ∈ members) :
    m.2.nesting ≤ nestingOfMembers members := by
  induction members with
  | nil => cases h
  | cons m' members ih =>
    rw [nestingOfMembers]
    obtain rfl | hm := List.mem_cons.1 h
    · exact Nat.le_max_left _ _
    · exact Nat.le_trans (ih hm) (Nat.le_max_right _ _)

/-- What is legible within a depth is legible within a larger one. -/
theorem Legible.mono {depth' : ℕ} (h : Legible depth j) (hle : depth ≤ depth') :
    Legible depth' j := by
  induction h generalizing depth' with
  | null => exact .null
  | bool b => exact .bool b
  | int hlow hhigh => exact .int hlow hhigh
  | str s => exact .str s
  | arr _ ih =>
    obtain ⟨k, rfl⟩ := Nat.exists_eq_add_of_lt hle
    exact .arr fun x hx => ih x hx (Nat.le_add_right _ k)
  | obj _ ih =>
    obtain ⟨k, rfl⟩ := Nat.exists_eq_add_of_lt hle
    exact .obj fun m hm => ih m hm (Nat.le_add_right _ k)

/-- An array whose items are legible as they nest is legible as it nests. -/
theorem legible_arr_nesting (h : ∀ x ∈ items, Legible x.nesting x) :
    Legible (arr items).nesting (arr items) := by
  rw [nesting]
  exact .arr fun x hx => (h x hx).mono (nesting_le_of_mem_items hx)

/-- And so is an object. -/
theorem legible_obj_nesting (h : ∀ m ∈ members, Legible m.2.nesting m.2) :
    Legible (obj members).nesting (obj members) := by
  rw [nesting]
  exact .obj fun m hm => (h m hm).mono (nesting_le_of_mem_members hm)

/-! ## Lists -/

theorem skipSpace_cons {c : Char} (h : isSpace c = false) (cs : List Char) :
    skipSpace (c :: cs) = c :: cs := List.dropWhile_cons_of_neg (by simp [h])

theorem stops_comma (cs : List Char) : Stops (',' :: cs) := by
  rintro c ⟨⟩
  exact .inl rfl

theorem stops_bracket (cs : List Char) : Stops (']' :: cs) := by
  rintro c ⟨⟩
  exact .inr (.inl rfl)

theorem stops_brace (cs : List Char) : Stops ('}' :: cs) := by
  rintro c ⟨⟩
  exact .inr (.inr rfl)

/-- **Items are read up to the closing bracket.** -/
theorem readItems_written (hne : items ≠ []) (h : ∀ x ∈ items, Rereads item x)
    (hfuel : items.length ≤ fuel) (rest : List Char) :
    readItems item fuel (commas (renderItems items) ++ ']' :: rest) = some (items, rest) := by
  induction items generalizing fuel with
  | nil => exact absurd rfl hne
  | cons x items ih =>
    cases fuel with
    | zero => exact absurd hfuel (by simp)
    | succ fuel =>
    have hx := h x List.mem_cons_self
    cases items with
    | nil =>
      rw [renderItems, renderItems, commas, readItems, hx _ (stops_bracket rest)]
      rfl
    | cons y items =>
      have hmore := ih (List.cons_ne_nil y items) (fun z hz => h z (List.mem_cons_of_mem x hz))
        (Nat.le_of_succ_le_succ hfuel)
      rw [renderItems] at hmore
      rw [renderItems, renderItems, commas, List.append_assoc, List.cons_append, readItems,
        hx _ (stops_comma _)]
      simp [skipSpace_cons, isSpace, hmore]

/-- A member is read with its key. -/
theorem readMember_written {m : String × Json} (h : Rereads item m.2) (hrest : Stops rest) :
    readMember item ((renderString m.1 ++ ':' :: m.2.render) ++ rest) = some (m, rest) := by
  have hkey := readString_written m.1 (':' :: (m.2.render ++ rest))
  have hvalue := h rest hrest
  unfold readMember renderString
  simp only [List.cons_append, List.append_assoc, List.nil_append]
  rw [skipSpace_cons (by decide)]
  simp [hkey, skipSpace_cons, isSpace, hvalue]

/-- **Members are read up to the closing brace.** -/
theorem readMembers_written (hne : members ≠ []) (h : ∀ m ∈ members, Rereads item m.2)
    (hfuel : members.length ≤ fuel) (rest : List Char) :
    readMembers item fuel (commas (renderMembers members) ++ '}' :: rest) =
      some (members, rest) := by
  induction members generalizing fuel with
  | nil => exact absurd rfl hne
  | cons m members ih =>
    cases fuel with
    | zero => exact absurd hfuel (by simp)
    | succ fuel =>
    have hm := h m List.mem_cons_self
    cases members with
    | nil =>
      rw [renderMembers, renderMembers, commas, readMembers,
        readMember_written hm (stops_brace rest)]
      rfl
    | cons m' members =>
      have hmore := ih (List.cons_ne_nil m' members)
        (fun m'' hm'' => h m'' (List.mem_cons_of_mem m hm'')) (Nat.le_of_succ_le_succ hfuel)
      rw [renderMembers] at hmore
      rw [renderMembers, renderMembers, commas, List.append_assoc, List.cons_append, readMembers,
        readMember_written hm (stops_comma _)]
      simp [skipSpace_cons, isSpace, hmore]

/-- Between parts there is a comma at least. -/
theorem length_le_length_commas (parts : List (List Char)) :
    parts.length ≤ (commas parts).length + 1 := by
  induction parts with
  | nil => exact Nat.zero_le _
  | cons p parts ih =>
    cases parts with
    | nil => simp
    | cons q parts =>
      rw [commas, List.length_append, List.length_cons (a := ',')]
      simp only [List.length_cons] at ih ⊢
      omega

/-- The text of a list is long enough for all its parts. -/
theorem length_le_length_commas_append (parts : List (List Char)) (close : Char)
    (rest : List Char) : parts.length ≤ (commas parts ++ close :: rest).length := by
  have hcommas := length_le_length_commas parts
  rw [List.length_append, List.length_cons]
  omega

/-- What is written of parts begins with the first of them. -/
theorem exists_commas_eq_append (p : List Char) (parts : List (List Char)) :
    ∃ more, commas (p :: parts) = p ++ more := by
  cases parts with
  | nil => exact ⟨[], (List.append_nil p).symm⟩
  | cons q parts => exact ⟨',' :: commas (q :: parts), rfl⟩

theorem length_renderItems (items : List Json) : (renderItems items).length = items.length := by
  induction items with
  | nil => rfl
  | cons x items ih => rw [renderItems, List.length_cons, ih, List.length_cons]

theorem length_renderMembers (members : List (String × Json)) :
    (renderMembers members).length = members.length := by
  induction members with
  | nil => rfl
  | cons m members ih => rw [renderMembers, List.length_cons, ih, List.length_cons]

/-! ## Values -/

/-- A written number begins with a minus sign or a digit, and so with no space or anything else. -/
theorem exists_intDigits_eq_cons (i : ℤ) : ∃ c cs, intDigits i = c :: cs ∧ isSpace c = false ∧
    ∀ d, (d == '-' || isDigit d) = false → c ≠ d := by
  obtain ⟨c, cs, hcs⟩ := List.exists_cons_of_ne_nil (intDigits_ne_nil i)
  have hne : ∀ d, (d == '-' || isDigit d) = false → c ≠ d := by
    rintro _ hd rfl
    rcases mem_intDigits (n := i) (c := c) (by rw [hcs]; simp) with rfl | hdigit
    · cases hd
    · rw [hdigit, Bool.or_true] at hd
      cases hd
  refine ⟨c, cs, hcs, ?_, hne⟩
  simp [isSpace, hne ' ' (by decide), hne '\n' (by decide), hne '\t' (by decide),
    hne '\r' (by decide)]

/-- A value begins with no space, and not as the end of a list. -/
theorem Legible.exists_render_eq_cons (h : Legible depth j) :
    ∃ c cs, j.render = c :: cs ∧ isSpace c = false ∧ c ≠ ']' := by
  cases h with
  | null => exact ⟨'n', _, rfl, rfl, by decide⟩
  | bool b => cases b <;> exact ⟨_, _, rfl, rfl, by decide⟩
  | @int _ i _ _ =>
    obtain ⟨c, cs, hcs, hspace, hne⟩ := exists_intDigits_eq_cons i
    exact ⟨c, cs, hcs, hspace, hne ']' (by decide)⟩
  | str s => exact ⟨'"', _, rfl, rfl, by decide⟩
  | arr h => exact ⟨'[', _, rfl, rfl, by decide⟩
  | obj h => exact ⟨'{', _, rfl, rfl, by decide⟩

/-- A value that is not in brackets is a scalar. -/
theorem readValue_scalar {c : Char} (hspace : isSpace c = false) (hbracket : c ≠ '[')
    (hbrace : c ≠ '{') (depth : ℕ) (cs : List Char) :
    readValue depth (c :: cs) = readScalar (c :: cs) := by
  cases depth with
  | zero => rw [readValue, skipSpace_cons hspace]
  | succ depth =>
    rw [readValue, skipSpace_cons hspace]
    split <;> simp_all

theorem rereads_int {i : ℤ} (hlow : -(pow2 63 : ℤ) ≤ i) (hhigh : i ≤ maxSignificand)
    (depth : ℕ) : Rereads (readValue depth) (.num (.int i)) := by
  intro rest hrest
  obtain ⟨c, cs, hcs, hspace, hne⟩ := exists_intDigits_eq_cons i
  have hread := readNumber_intDigits hlow hhigh hrest
  have hother {d : Char} {ds : List Char} (hd : (d == '-' || isDigit d) = false) :
      c :: (cs ++ rest) ≠ d :: ds := fun h => hne d hd (List.cons.inj h).1
  rw [hcs, List.cons_append] at hread
  rw [render, renderNum, hcs, List.cons_append,
    readValue_scalar hspace (hne '[' (by decide)) (hne '{' (by decide)),
    readScalar.eq_5 _ (fun _ => hother (by decide)) (fun _ => hother (by decide))
      (fun _ => hother (by decide)) (fun _ => hother (by decide)), hread]
  rfl

theorem rereads_str (s : String) (depth : ℕ) : Rereads (readValue depth) (.str s) := by
  intro rest _
  have hread := readString_written s rest
  rw [render, renderString, List.cons_append, List.append_assoc, List.singleton_append,
    readValue_scalar (by decide) (by decide) (by decide), readScalar]
  simp [hread]

/-- Behind a bracket that is not closed at once there are items. -/
theorem readValue_bracket {c : Char} {cs : List Char} (hspace : isSpace c = false)
    (hclose : c ≠ ']')
    (hread : readItems (readValue depth) (c :: cs).length (c :: cs) = some (items, rest)) :
    readValue (depth + 1) ('[' :: c :: cs) = some (.arr items, rest) := by
  rw [List.length_cons] at hread
  rw [readValue, skipSpace_cons (by decide)]
  simp [skipSpace_cons hspace, hclose, hread]

/-- Behind a brace that is not closed at once there are members. -/
theorem readValue_brace {c : Char} {cs : List Char} (hspace : isSpace c = false)
    (hclose : c ≠ '}')
    (hread : readMembers (readValue depth) (c :: cs).length (c :: cs) = some (members, rest)) :
    readValue (depth + 1) ('{' :: c :: cs) = some (.obj members, rest) := by
  rw [List.length_cons] at hread
  rw [readValue, skipSpace_cons (by decide)]
  simp [skipSpace_cons hspace, hclose, hread]

/-- **Items in brackets are read back** if each of them is, one level further down. -/
theorem rereads_arr (hbegins : ∀ x ∈ items, ∃ c cs, x.render = c :: cs ∧ isSpace c = false ∧
    c ≠ ']') (h : ∀ x ∈ items, Rereads (readValue depth) x) :
    Rereads (readValue (depth + 1)) (.arr items) := by
  intro rest _
  cases items with
  | nil => rfl
  | cons x items =>
    obtain ⟨c, cs, hcs, hspace, hclose⟩ := hbegins x List.mem_cons_self
    obtain ⟨more, hmore⟩ := exists_commas_eq_append x.render (renderItems items)
    have hfuel : (x :: items).length ≤
        (commas (renderItems (x :: items)) ++ ']' :: rest).length := by
      rw [← length_renderItems]
      exact length_le_length_commas_append _ _ _
    have hread := readItems_written (List.cons_ne_nil x items) h hfuel rest
    rw [renderItems, hmore, hcs] at hread
    rw [render, renderItems, hmore, hcs, List.cons_append, List.append_assoc,
      List.singleton_append]
    exact readValue_bracket hspace hclose hread

/-- **Members in braces are read back** if each of their values is, one level further down. -/
theorem rereads_obj (h : ∀ m ∈ members, Rereads (readValue depth) m.2) :
    Rereads (readValue (depth + 1)) (.obj members) := by
  intro rest _
  cases members with
  | nil => rfl
  | cons m members =>
    obtain ⟨more, hmore⟩ := exists_commas_eq_append (renderString m.1 ++ ':' :: m.2.render)
      (renderMembers members)
    have hfuel : (m :: members).length ≤
        (commas (renderMembers (m :: members)) ++ '}' :: rest).length := by
      rw [← length_renderMembers]
      exact length_le_length_commas_append _ _ _
    have hread := readMembers_written (List.cons_ne_nil m members) h hfuel rest
    rw [renderMembers, hmore, renderString] at hread
    rw [render, renderMembers, hmore, renderString, List.cons_append, List.append_assoc,
      List.singleton_append]
    exact readValue_brace (by decide) (by decide) hread

/-- **A document is read back in front of whatever can follow it.** -/
theorem Legible.rereads (h : Legible depth j) : Rereads (readValue depth) j := by
  induction h with
  | null =>
    intro rest hrest
    exact readValue_scalar (by decide) (by decide) (by decide) _ _
  | bool b =>
    intro rest hrest
    cases b <;> exact readValue_scalar (by decide) (by decide) (by decide) _ _
  | int hlow hhigh => exact rereads_int hlow hhigh _
  | str s => exact rereads_str s _
  | arr h ih => exact rereads_arr (fun x hx => (h x hx).exists_render_eq_cons) ih
  | obj _ ih => exact rereads_obj ih

/-- **A document is read back from its text.** -/
theorem read?_text (h : Legible maxDepth j) : read? j.text = some j := by
  have hread := h.rereads [] stops_nil
  rw [List.append_nil] at hread
  rw [read?, readWithin?, text, String.toList_ofList, hread]
  rfl

end Enablement.Json
