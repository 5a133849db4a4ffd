import Enablement.Convert.Standard
import Enablement.Proofs.Conversion.Outcome
/-!
# Copies — what is read of a copied element

The owned copy of a node has the attributes that are present, in order of their names. Where no
attribute is listed twice, the copy reads like the node (`alike_copy`), all the way down, and the
standard language makes the same of what reads alike (`convert_eq_of_alike`). The copy of an owned
element is this element.
-/

namespace Enablement

namespace Element

/-! ## Copies of elements -/

theorem toNodes_eq_map (es : List Element) : toNodes es = es.map toNode := by
  induction es with
  | nil => rfl
  | cons e es ih => rw [toNodes, ih, List.map_cons]

theorem ofNodes_eq_map (ns : List Node) : ofNodes ns = ns.map ofNode := by
  induction ns with
  | nil => rfl
  | cons n ns ih => rw [ofNodes, ih, List.map_cons]

mutual

/-- The copy of an owned element is the element. -/
theorem ofNode_toNode : ∀ e : Element, ofNode e.toNode = e
  | mk name attributes children contributor => by
    have hattributes : (attributes.entries.map fun e => (e.1, some e.2)).filterMap
        (fun e => e.2.map (e.1, ·)) = attributes.entries := by
      rw [List.filterMap_map]
      exact List.filterMap_some
    rw [toNode, ofNode, hattributes, NameMap.ofList_entries, ofNodes_toNodes children]

theorem ofNodes_toNodes : ∀ es : List Element, ofNodes (toNodes es) = es
  | [] => rfl
  | e :: es => by rw [toNodes, ofNodes, ofNode_toNode e, ofNodes_toNodes es]

end

end Element

namespace Node

/-! ## Nodes that read alike -/

/-- Two nodes read alike: the name, the value of every attribute, and the children one by one. -/
inductive Alike : Node → Node → Prop
  | intro {n m : Node} (name : n.name = m.name)
    (attributes : ∀ attr, n.attribute? attr = m.attribute? attr)
    (children : List.Forall₂ Alike n.children m.children) : Alike n m

/-- A node whose attributes are listed once each, as are those of all nodes below. -/
inductive Tidy : Node → Prop
  | intro {n : Node} (nodup : (n.attributes.map Prod.fst).Nodup)
    (children : ∀ c ∈ n.children, Tidy c) : Tidy n

variable {n m : Node}

/-- An attribute that is listed once reads as it is listed. -/
theorem attribute?_eq_some_iff (hn : (n.attributes.map Prod.fst).Nodup) {attr value : String} :
    n.attribute? attr = some value ↔ (attr, some value) ∈ n.attributes := by
  rw [attribute?]
  generalize n.attributes = l at hn ⊢
  induction l with
  | nil => simp
  | cons e l ih =>
    obtain ⟨hfresh, hl⟩ := List.nodup_cons.1 hn
    rw [List.find?_cons, List.mem_cons]
    by_cases he : e.1 = attr
    · subst he
      have hmem : (e.1, some value) ∉ l := fun h => hfresh (List.mem_map.2 ⟨_, h, rfl⟩)
      simp [hmem, Prod.ext_iff, eq_comm]
    · have hne : (attr, some value) ≠ e := fun h => he (h ▸ rfl)
      rw [beq_eq_false_iff_ne.2 he, or_iff_right hne]
      exact ih hl

/-- The attributes of a copy are those that are present. -/
theorem find?_ofNode (hn : (n.attributes.map Prod.fst).Nodup) (attr : String) :
    (Element.ofNode n).attributes.find? attr = n.attribute? attr := by
  have hcopy : (Element.ofNode n).attributes = NameMap.ofList n.presentAttributes := by
    cases n
    rfl
  have hpresent : (n.presentAttributes.map Prod.fst).Nodup := by
    refine hn.sublist ?_
    rw [presentAttributes]
    induction n.attributes with
    | nil => exact .slnil
    | cons e l ih =>
      obtain ⟨name, _ | value⟩ := e
      · exact ih.cons name
      · exact ih.cons_cons name
  refine Option.ext fun value => ?_
  rw [hcopy, NameMap.find?_ofList_eq_some_iff hpresent, attribute?_eq_some_iff hn,
    presentAttributes, List.mem_filterMap]
  constructor
  · rintro ⟨⟨name, read⟩, he, hvalue⟩
    cases read with
    | none => cases hvalue
    | some v => cases hvalue; exact he
  · exact fun h => ⟨_, h, rfl⟩

/-- A node of an owned element has the attributes of the element. -/
theorem attribute?_toNode (e : Element) (attr : String) :
    e.toNode.attribute? attr = e.attributes.find? attr := by
  cases e with
  | mk name attributes children contributor =>
    have hnames : (attributes.entries.map fun e => (e.1, some e.2)).map Prod.fst =
        attributes.names := by
      rw [List.map_map]
      rfl
    refine Option.ext fun value => ?_
    rw [Element.toNode, Element.attributes, NameMap.find?_eq_some_iff,
      attribute?_eq_some_iff (hnames ▸ attributes.nodup_names)]
    simp [Node.attributes]

theorem children_toNode (e : Element) : e.toNode.children = e.children.map Element.toNode := by
  cases e
  exact Element.toNodes_eq_map _

theorem children_ofNode (n : Node) :
    (Element.ofNode n).children = n.children.map Element.ofNode := by
  cases n
  exact Element.ofNodes_eq_map _

/-- **A copy reads like the node** that it is of. -/
theorem alike_copy (hn : n.Tidy) : Alike (Element.ofNode n).toNode n := by
  induction n using inductionOn with
  | step n ih =>
  obtain ⟨hnodup, hchildren⟩ := hn
  refine ⟨?_, fun attr => ?_, ?_⟩
  · cases n
    rfl
  · rw [attribute?_toNode, find?_ofNode hnodup]
  · rw [children_toNode, children_ofNode, List.map_map, List.forall₂_map_left_iff,
      List.forall₂_same]
    exact fun c hc => ih c hc (hchildren c hc)

end Node

/-- A handler whose plans depend on the name of an element and the values of its attributes only. -/
def Handler.ReadsAttributes (h : Handler) : Prop :=
  ∀ {linked : Bool} {n m : Node}, n.name = m.name →
    (∀ attr, n.attribute? attr = m.attribute? attr) → h.plan? linked n = h.plan? linked m

theorem Standard.handler_readsAttributes : Standard.handler.ReadsAttributes := by
  intro linked n m hname hattr
  simp only [handler, plan?, readTest, readResolve, readIterate, readSystemTest, readEquals,
    Node.require, Node.arguments, Node.literal?, Node.isTrue, hname, hattr]

namespace Converter

variable {c : Converter}

/-- What reads alike is planned alike, by handlers that only read. -/
theorem plan?_congr (hc : ∀ h ∈ c.handlers, h.ReadsAttributes) {n m : Node}
    (hname : n.name = m.name) (hattr : ∀ attr, n.attribute? attr = m.attribute? attr) :
    c.plan? n = c.plan? m := by
  rw [plan?, plan?]
  generalize c.handlers = hs at hc ⊢
  induction hs with
  | nil => rfl
  | cons h hs ih =>
    rw [List.findSome?_cons, List.findSome?_cons, hc h List.mem_cons_self hname hattr,
      ih fun h hh => hc h (List.mem_cons_of_mem _ hh)]

/-- **What reads alike is converted alike**, by handlers that only read. -/
theorem convert_eq_of_alike (hc : ∀ h ∈ c.handlers, h.ReadsAttributes) {n m : Node}
    (h : Node.Alike n m) : c.convert n = c.convert m := by
  induction n using Node.inductionOn generalizing m with
  | step n ih =>
  obtain ⟨hname, hattr, hchildren⟩ := h
  have hbelow : List.Forall₂ (fun n m => c.convert n = c.convert m) n.children m.children :=
    ((List.forall₂_and_left _ _).2 ⟨fun a ha b => ih a ha (m := b), hchildren⟩).imp
      fun a b h => h.1 b h.2
  have hmap : n.children.map c.convert = m.children.map c.convert := by
    rwa [← List.forall₂_eq_eq_eq, List.forall₂_map_left_iff, List.forall₂_map_right_iff]
  rw [convert_eq_follow, convert_eq_follow, plan?_congr hc hname hattr, hname, hmap]

end Converter

end Enablement
