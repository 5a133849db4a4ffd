import Enablement.Element.Reading
import Enablement.Proofs.Element.Nodes
import Enablement.Proofs.Json.Written
/-!
# Elements as documents — what is written is read back

The writer leaves out what is empty, and the reader takes a missing member for an empty one. So the
members of a document are read one after another into a draft that holds exactly what was written
(`draftOf?_attributes`, `draftOf?_children`, `draftOf?_contributor`), and finishing the draft puts
the empty parts back. Attribute values are written as strings, and a string is read as it stands,
whatever it looks like. There are no numbers in the document of an element, so its text holds it
whenever it does not nest too deep (`legible_toJson`).
-/

namespace Enablement.Element

variable {d : Draft}

/-! ## The document -/

theorem allToJson_eq_map (es : List Element) : allToJson es = es.map toJson := by
  induction es with
  | nil => rfl
  | cons e es ih => rw [allToJson, ih, List.map_cons]

/-- What is in a part that is left out under a condition. -/
theorem mem_unless {p : Prop} [Decidable p] {m m' : String × Json} :
    m ∈ (if p then [] else [m']) ↔ ¬ p ∧ m = m' := by
  by_cases hp : p <;> simp [hp]

/-- The document of an element is an object of the name and of the parts that are not empty. -/
theorem exists_toJson_eq_obj (e : Element) : ∃ members, e.toJson = .obj members ∧
    ∀ key j, (key, j) ∈ members ↔
      key = "name" ∧ j = .str e.name ∨
      key = "attributes" ∧ e.attributes ≠ {} ∧
        j = .obj (e.attributes.entries.map fun a => (a.1, .str a.2)) ∨
      key = "children" ∧ e.children ≠ [] ∧ j = .arr (e.children.map toJson) ∨
      key = "contributor" ∧ ∃ c, e.contributor = some c ∧ j = .str c := by
  cases e with
  | mk name attributes children contributor =>
    refine ⟨_, rfl, fun key j => ?_⟩
    rw [List.mem_cons, List.mem_append, List.mem_append]
    refine or_congr ?name (or_congr ?attributes (or_congr ?children ?contributor))
    case name =>
      rw [Prod.mk.injEq]
      rfl
    case attributes =>
      rw [mem_unless, NameMap.isEmpty_iff_eq_empty, Prod.mk.injEq, and_left_comm]
      rfl
    case children =>
      rw [mem_unless, List.isEmpty_iff, Prod.mk.injEq, and_left_comm, allToJson_eq_map]
      rfl
    case contributor =>
      cases contributor with
      | none => simp [Element.contributor]
      | some c => simp [Element.contributor]

/-- **There are no numbers in the document of an element**, so its text holds it as deep as it
nests. -/
theorem legible_toJson (e : Element) : Json.Legible e.toJson.nesting e.toJson := by
  induction e using inductionOn with
  | step e ih =>
  obtain ⟨members, hmembers, hmem⟩ := exists_toJson_eq_obj e
  rw [hmembers]
  refine Json.legible_obj_nesting fun m hm => ?_
  obtain ⟨-, hj⟩ | ⟨-, -, hj⟩ | ⟨-, -, hj⟩ | ⟨-, c, -, hj⟩ := (hmem m.1 m.2).1 hm
  · rw [hj]
    exact .str e.name
  · rw [hj]
    refine Json.legible_obj_nesting (List.forall_mem_map.2 fun a _ => ?_)
    exact .str a.2
  · rw [hj]
    exact Json.legible_arr_nesting (List.forall_mem_map.2 ih)
  · rw [hj]
    exact .str c

/-! ## Reading the document -/

/-- Attribute values are read as the texts that they are. -/
theorem attributesOf?_written (attributes : NameMap String) :
    attributesOf? (.obj (attributes.entries.map fun a => (a.1, .str a.2))) = some attributes := by
  have hvalues : ∀ l : List (String × String),
      (l.map fun a => (a.1, Json.str a.2)).mapM
        (fun a => (scalarText? a.2).map (a.1, ·)) = some l := by
    intro l
    induction l with
    | nil => rfl
    | cons a l ih =>
      rw [List.map_cons, List.mapM_cons, ih]
      rfl
  rw [attributesOf?, hvalues, Option.map_some, NameMap.ofList_entries]

/-- Attributes that were written are in the draft, and none if none were written. -/
theorem draftOf?_attributes (hd : d.attributes = none) (attributes : NameMap String)
    (rest : List (String × Json)) :
    draftOf? d ((if attributes.isEmpty then []
        else [("attributes", .obj (attributes.entries.map fun a => (a.1, .str a.2)))]) ++ rest) =
      draftOf?
        { d with attributes := if attributes.isEmpty then none else some attributes } rest := by
  obtain ⟨name, _, children, contributor⟩ := d
  cases hd
  split
  · rfl
  · rw [List.singleton_append, draftOf?, if_neg (by decide), if_pos rfl,
      attributesOf?_written]

/-- Children that were written are in the draft, if each of them is read back. -/
theorem draftOf?_children (hd : d.children = none) {children : List Element}
    (h : ∀ c ∈ children, ofJson? c.toJson = some c) (rest : List (String × Json)) :
    draftOf? d ((if children.isEmpty then []
        else [("children", .arr (allToJson children))]) ++ rest) =
      draftOf? { d with children := if children.isEmpty then none else some children } rest := by
  have hread : childrenOf? (.arr (allToJson children)) = some children := by
    rw [childrenOf?]
    induction children with
    | nil => rfl
    | cons c cs ih =>
      rw [allToJson, ofItems?, h c List.mem_cons_self,
        ih fun c' hc' => h c' (List.mem_cons_of_mem c hc')]
      rfl
  obtain ⟨name, attributes, _, contributor⟩ := d
  cases hd
  split
  · rfl
  · rw [List.singleton_append, draftOf?, if_neg (by decide), if_neg (by decide), if_pos rfl, hread]

/-- A contributor that was written is in the draft, which is then complete. -/
theorem draftOf?_contributor (hd : d.contributor = none) (c : String) :
    draftOf? d [("contributor", .str c)] = some { d with contributor := some (some c) } := by
  obtain ⟨name, attributes, children, _⟩ := d
  cases hd
  rw [draftOf?, if_neg (by decide), if_neg (by decide), if_neg (by decide), if_pos rfl,
    contributorOf?]
  rfl

/-- **The document of an element is read as the element.** -/
theorem ofJson?_toJson (e : Element) : ofJson? e.toJson = some e := by
  induction e using inductionOn with
  | step e ih =>
  cases e with
  | mk name attributes children contributor =>
    have hchildren : ∀ c ∈ children, ofJson? c.toJson = some c := ih
    -- what is missing in the draft is empty
    have hempty : (if attributes.isEmpty then none else some attributes).getD {} = attributes := by
      split
      · next h => exact (NameMap.isEmpty_iff_eq_empty.1 h).symm
      · rfl
    have hnil : (if children.isEmpty then none else some children).getD [] = children := by
      split
      · next h => exact (List.isEmpty_iff.1 h).symm
      · rfl
    unfold toJson
    rw [ofJson?, draftOf?, if_pos rfl, stringOf?]
    dsimp only
    rw [draftOf?_attributes rfl, draftOf?_children rfl hchildren]
    cases contributor with
    | none =>
      rw [draftOf?, Option.bind_some, Draft.finish?]
      dsimp only
      rw [hempty, hnil, Option.map_some, Option.getD_none]
    | some c =>
      dsimp only
      rw [draftOf?_contributor rfl, Option.bind_some, Draft.finish?]
      dsimp only
      rw [hempty, hnil, Option.map_some, Option.getD_some]

/-! ## Reading the text -/

/-- **Elements survive being written and read.** The text of any element that nests within the bound
is read as this very element: names, attributes, children and contributors are the same, whatever
characters are in them and whatever attribute values look like. The document has the name, and of
the other parts those that are not empty. -/
theorem read?_written :
    (∀ e : Element, e.toJson.nesting ≤ Json.maxDepth → read? e.toJson.text = some e) ∧
      ∀ e : Element, ∃ members, e.toJson = .obj members ∧
        ∀ key j, (key, j) ∈ members ↔
          key = "name" ∧ j = .str e.name ∨
          key = "attributes" ∧ e.attributes ≠ {} ∧
            j = .obj (e.attributes.entries.map fun a => (a.1, .str a.2)) ∨
          key = "children" ∧ e.children ≠ [] ∧ j = .arr (e.children.map toJson) ∨
          key = "contributor" ∧ ∃ c, e.contributor = some c ∧ j = .str c := by
  refine ⟨fun e h => ?_, exists_toJson_eq_obj⟩
  have hlegible : Json.Legible Json.maxDepth e.toJson := (legible_toJson e).mono h
  rw [read?, Json.read?_text hlegible, Option.bind_some, ofJson?_toJson]

/-- Values that look like a boolean, an integer and numbers with a point or an exponent, below an
element without attributes. -/
theorem read?_written_scalars :
    let e : Element := .mk "and" {} [.mk "test" (.ofList [("args", "007"), ("forced", "true"),
      ("value", "1.0"), ("\"", "1e5")]) [] none] (some "org.example")
    e.toJson.nesting ≤ Json.maxDepth ∧ read? e.toJson.text = some e := by
  intro e
  have hnesting : e.toJson.nesting ≤ Json.maxDepth := by decide
  exact ⟨hnesting, read?_written.1 e hnesting⟩

end Enablement.Element
