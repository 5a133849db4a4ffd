import Enablement.Proofs.Document.Walks
import Enablement.Proofs.Element.Copies
import Enablement.Proofs.Expr.Equality
import Enablement.Expr.Digest
/-!
# Document trees — elements and their copies are converted alike

An attribute that is set again is replaced, so no element of a document has an attribute twice. That
is all that a copy needs in order to read like the element: what is empty reads as absent, and is
left out of the copy; text and comments are not among the children that are read, and the copy has
none.
-/

namespace Enablement

namespace Document

variable {d : Document} {n p c : ℕ} {children : ℕ → List ℕ}

/-! ## Attributes are listed once -/

/-- The attributes of every element are listed once each. -/
def NamesOnce (d : Document) : Prop :=
  ∀ n name attributes, d.kind? n = some (.element name attributes) →
    (attributes.map Prod.fst).Nodup

theorem nodup_putAttribute {l : List (String × String)} (hl : (l.map Prod.fst).Nodup)
    (name value : String) : ((putAttribute name value l).map Prod.fst).Nodup := by
  -- other names are listed as before
  have hother : ∀ {other} {l : List (String × String)}, other ≠ name →
      other ∉ l.map Prod.fst → other ∉ (putAttribute name value l).map Prod.fst := by
    intro other l hne hl
    induction l with
    | nil => simpa [putAttribute] using hne
    | cons e l ih =>
      rw [putAttribute]
      split <;> simp_all
  induction l with
  | nil => exact List.nodup_singleton name
  | cons e l ih =>
    obtain ⟨hfresh, hl⟩ := List.nodup_cons.1 hl
    rw [putAttribute]
    split
    · exact List.nodup_cons.2 ⟨hfresh, hl⟩
    · next hne => exact List.nodup_cons.2 ⟨hother hne hfresh, ih hl⟩

theorem kind?_modify (d : Document) (m n : ℕ) (f : DomNode → DomNode) :
    (d.modify m f).kind? n =
      if m = n then d.nodes[n]?.map fun node => (f node).kind else d.kind? n := by
  rw [kind?, getElem?_modify, kind?]
  split
  · rw [Option.map_map]
    rfl
  · rfl

theorem kind?_modify_of_links {f : DomNode → DomNode} (hf : ∀ node, (f node).kind = node.kind)
    (d : Document) (m n : ℕ) : (d.modify m f).kind? n = d.kind? n := by
  rw [kind?_modify, kind?]
  simp only [hf, ite_self]

/-- Attaching a node changes no kind. -/
theorem kind?_append (d : Document) (p c n : ℕ) : (d.append p c).1.kind? n = d.kind? n := by
  cases h : d.canAppend p c with
  | false => rw [append_of_not h]
  | true =>
    rw [append_of_can h, kind?_modify_of_links (f := setParent p) fun _ => rfl,
      kind?_modify_of_links (f := setLastChild c) fun _ => rfl, linkTo]
    cases d.lastChild? p with
    | some last => exact kind?_modify_of_links (f := setNextSibling c) (fun _ => rfl) d last n
    | none => exact kind?_modify_of_links (f := setFirstChild c) (fun _ => rfl) d p n

theorem NamesOnce.create (hd : d.NamesOnce) {kind : DomKind}
    (hkind : ∀ name attributes, kind = .element name attributes → attributes = []) :
    (d.create kind).1.NamesOnce := by
  intro n name attributes hn
  rw [kind?, Document.create, List.getElem?_append] at hn
  split at hn
  · exact hd n name attributes hn
  · rw [List.getElem?_singleton] at hn
    split at hn
    · rw [hkind name attributes (Option.some.inj hn)]
      exact List.nodup_nil
    · cases hn

theorem NamesOnce.setAttribute (hd : d.NamesOnce) (m : ℕ) (name value : String) :
    (d.setAttribute m name value).NamesOnce := by
  intro n e attributes hn
  rw [Document.setAttribute, kind?_modify] at hn
  split at hn
  · obtain ⟨node, hnode, hkind⟩ := Option.map_eq_some_iff.1 hn
    have hbefore : d.kind? n = some node.kind := by rw [kind?, hnode, Option.map_some]
    cases hold : node.kind with
    | text t => rw [hold] at hkind; cases hold ▸ hkind
    | comment t => rw [hold] at hkind; cases hold ▸ hkind
    | element e' attributes' =>
      rw [hold] at hkind hbefore
      cases hkind
      exact nodup_putAttribute (hd n _ _ hbefore) name value
  · exact hd n e attributes hn

/-- An edit lists no attribute twice. -/
theorem NamesOnce.perform (hd : d.NamesOnce) (edit : Edit) : (d.perform edit).NamesOnce := by
  cases edit with
  | element name => exact hd.create fun _ _ h => by cases h; rfl
  | text t => exact hd.create nofun
  | comment t => exact hd.create nofun
  | setAttribute m name value => exact hd.setAttribute m name value
  | append p c => exact fun n name attributes h => hd n name attributes (kind?_append d p c n ▸ h)

theorem namesOnce_built (contributor : Option String) (edits : List Edit) :
    (built contributor edits).NamesOnce := by
  have hafter : ∀ {d : Document}, d.NamesOnce → (d.after edits).NamesOnce := by
    induction edits with
    | nil => exact id
    | cons edit edits ih => exact fun hd => ih (hd.perform edit)
  exact hafter nofun

/-! ## What is seen and copied -/

/-- An attribute reads as it is if it is not empty. -/
theorem mem_readAttribute {l : List (String × String)} {attr value : String} :
    (∃ e ∈ l, readAttribute e = (attr, some value)) ↔ (attr, value) ∈ l ∧ value ≠ "" := by
  constructor
  · rintro ⟨⟨name, text⟩, he, hread⟩
    rw [readAttribute] at hread
    split at hread
    · cases hread
    · next hempty =>
      cases hread
      exact ⟨he, fun h => hempty (String.isEmpty_iff.2 h)⟩
  · rintro ⟨he, hvalue⟩
    refine ⟨_, he, ?_⟩
    rw [readAttribute, if_neg fun h => hvalue (String.isEmpty_iff.1 h)]

/-- Whether a node is an element. -/
def isElement (d : Document) (n : ℕ) : Bool :=
  match d.kind? n with
  | some (.element _ _) => true
  | _ => false

/-- An owned element is the copy of an element of a document: the same name and contributor, exactly
the attributes that are not empty, and copies of exactly the children that are elements, in the
order in which they are linked. -/
inductive Copied (d : Document) : ℕ → Element → Prop
  | intro {n : ℕ} {e : Element} {attributes : List (String × String)} {children : List ℕ}
    (kind : d.kind? n = some (.element e.name attributes))
    (values : ∀ attr value,
      e.attributes.find? attr = some value ↔ (attr, value) ∈ attributes ∧ value ≠ "")
    (contributor : e.contributor = d.contributor)
    (siblings : Siblings d (d.firstChild? n) children)
    (below : List.Forall₂ (Copied d) (children.filter d.isElement) e.children) : Copied d n e

namespace Forest

variable (hd : Forest d children)
include hd

/-- Elements are seen. -/
theorem view?_isSome (n : ℕ) : (d.view? n).isSome = d.isElement n := by
  rw [hd.view?_eq, isElement]
  cases d.kind? n with
  | none => rfl
  | some kind => cases kind <;> rfl

theorem view?_eq_some {v : Node} (h : d.view? n = some v) : ∃ attributes,
    d.kind? n = some (.element v.name attributes) ∧ v.attributes = attributes.map readAttribute ∧
      v.children = (children n).filterMap d.view? ∧ v.contributor = d.contributor := by
  rw [hd.view?_eq] at h
  split at h
  · next name attributes hkind =>
    cases h
    exact ⟨attributes, hkind, rfl, congrArg _ (hd.childNodes_eq n), rfl⟩
  · cases h

/-- What is seen of a document has no attribute twice. -/
theorem tidy_view (hnames : d.NamesOnce) {v : Node} (h : d.view? n = some v) : v.Tidy := by
  induction n using hd.wellFounded_down.induction generalizing v with
  | _ n ih =>
  obtain ⟨attributes, hkind, hattributes, hchildren, -⟩ := hd.view?_eq_some h
  refine ⟨?_, fun c hc => ?_⟩
  · rw [hattributes, List.map_map]
    exact hnames n _ attributes hkind
  · rw [hchildren] at hc
    obtain ⟨m, hm, hview⟩ := List.mem_filterMap.1 hc
    exact ih m (hd.mem_iff.1 hm) hview

/-- **A copy has what is not empty and the children that are elements.** -/
theorem copied (hnames : d.NamesOnce) {v : Node} (h : d.view? n = some v) :
    Copied d n (Element.ofNode v) := by
  induction n using hd.wellFounded_down.induction generalizing v with
  | _ n ih =>
  obtain ⟨attributes, hkind, hattributes, hchildren, hcontributor⟩ := hd.view?_eq_some h
  have hname : (Element.ofNode v).name = v.name := by
    cases v
    rfl
  have hvalues : ∀ attr value, (Element.ofNode v).attributes.find? attr = some value ↔
      (attr, value) ∈ attributes ∧ value ≠ "" := by
    intro attr value
    obtain ⟨hnodup, -⟩ := hd.tidy_view hnames h
    rw [Node.find?_ofNode hnodup, Node.attribute?_eq_some_iff hnodup, hattributes, List.mem_map]
    exact mem_readAttribute
  refine .intro (hname ▸ hkind) hvalues ?_ (hd.siblings n) ?_
  · rw [← hcontributor]
    cases v
    rfl
  · -- child by child: what is no element is neither seen nor copied
    rw [Node.children_ofNode, hchildren]
    have hbelow : ∀ {m w}, m ∈ children n → d.view? m = some w →
        Copied d m (Element.ofNode w) := fun hm hw => ih _ (hd.mem_iff.1 hm) hw
    generalize children n = l at hbelow ⊢
    induction l with
    | nil => exact .nil
    | cons m l ihl =>
      have hrest := ihl fun hm hw => hbelow (List.mem_cons_of_mem m hm) hw
      have hseen := hd.view?_isSome m
      cases hview : d.view? m with
      | none =>
        rw [hview] at hseen
        rwa [List.filter_cons_of_neg (by rw [← hseen]; nofun), List.filterMap_cons_none hview]
      | some w =>
        rw [hview] at hseen
        rw [List.filter_cons_of_pos hseen.symm, List.filterMap_cons_some hview, List.map_cons]
        exact .cons (hbelow List.mem_cons_self hview) hrest

end Forest

/-- Two conversions end alike: with the same fault, or with expressions that are equal and have the
same hash codes. -/
inductive EndAlike : Except Fault Expr → Except Fault Expr → Prop
  | error (f : Fault) : EndAlike (.error f) (.error f)
  | ok {x y : Expr} (equal : (x == y) = true) (codes : ∀ h : Hasher, x.code h = y.code h) :
    EndAlike (.ok x) (.ok y)

theorem endAlike_self : ∀ r, EndAlike r r
  | .error f => .error f
  | .ok x => .ok (beq_self_eq_true x) fun _ => rfl

/-- **Elements of documents and their owned copies are converted alike**, whatever was done to the
document. -/
theorem copies_convert_alike (linked : Bool) :
    (∀ contributor edits n, (built contributor edits).isElement n = true →
      ∃ v, (built contributor edits).view? n = some v ∧
        Copied (built contributor edits) n (Element.ofNode v) ∧
        EndAlike (({ Standard.converter with linked } : Converter).convert v)
          (({ Standard.converter with linked } : Converter).convert (Element.ofNode v).toNode)) ∧
      ∀ e : Element, Element.ofNode e.toNode = e ∧
        EndAlike (({ Standard.converter with linked } : Converter).convert e.toNode)
          (({ Standard.converter with linked } : Converter).convert
            (Element.ofNode e.toNode).toNode) := by
  refine ⟨fun contributor edits n hn => ?_, fun e => ?_⟩
  · have hd := forest_built contributor edits
    have hnames := namesOnce_built contributor edits
    rw [← hd.view?_isSome] at hn
    obtain ⟨v, hv⟩ := Option.isSome_iff_exists.1 hn
    have hconvert := Converter.convert_eq_of_alike (c := { Standard.converter with linked })
      (fun h hh => List.mem_singleton.1 hh ▸ Standard.handler_readsAttributes)
      (Node.alike_copy (hd.tidy_view hnames hv))
    refine ⟨v, hv, hd.copied hnames hv, ?_⟩
    rw [hconvert]
    exact endAlike_self _
  · rw [Element.ofNode_toNode]
    exact ⟨rfl, endAlike_self _⟩

/-- The copy of a conjunction with an empty attribute over a comment and a negation: neither the
attribute nor the comment is in the copy. -/
theorem copies_convert_alike_conjunction :
    let d := built (some "org.example") [.element "and", .comment "first", .append 0 1,
      .element "not", .setAttribute 0 "id" "a", .setAttribute 2 "note" "b", .append 0 2,
      .setAttribute 0 "id" ""]
    let v : Node := .mk "and" [("id", none)]
      [.mk "not" [("note", some "b")] [] (some "org.example")] (some "org.example")
    let e : Element := .mk "and" {}
      [.mk "not" (.ofList [("note", "b")]) [] (some "org.example")] (some "org.example")
    d.view? 0 = some v ∧ Copied d 0 e ∧
      EndAlike (Standard.converter.convert v) (Standard.converter.convert e.toNode) := by
  intro d v e
  have hv : d.view? 0 = some v := by rfl
  obtain ⟨w, hw, hcopied, halike⟩ := (copies_convert_alike false).1 (some "org.example")
    [.element "and", .comment "first", .append 0 1, .element "not", .setAttribute 0 "id" "a",
      .setAttribute 2 "note" "b", .append 0 2, .setAttribute 0 "id" ""] 0 (by decide)
  obtain rfl : v = w := Option.some.inj (hv.symm.trans hw)
  exact ⟨hv, hcopied, halike⟩

end Document

end Enablement
