import Enablement.Proofs.Act
import Enablement.Proofs.Registry.Survivors
import Enablement.Proofs.Results
/-!
# Registry — testers from an extension

An extension element declares testers by some of its children. Each of these has to say who
contributes it and five attributes more (`mandatory`); the contributor may be said by the extension
for all of them. If one child leaves something out, nothing is registered, and the fault is about
the first such child and the first part that it leaves out; otherwise all testers are registered, in
the order of the children (`addTestersFrom_all_or_nothing`).
-/

namespace Enablement

namespace Descriptor

variable {extension child : Node} {part : String}

/-! ## What a tester element says -/

/-- The parts that a tester has to be declared with, in the order in which they are looked for. -/
def mandatory : List String := ["contributor", "id", "type", "namespace", "properties", "class"]

/-- What a child of an extension says of a part. A child that does not name its contributor has that
of the extension. -/
def said? (extension child : Node) (part : String) : Option String :=
  if part = "contributor" then child.contributor.or extension.contributor
  else child.attribute? part

/-- The first part that a child leaves out. -/
def missing? (extension child : Node) : Option String :=
  mandatory.find? fun part => (said? extension child part).isNone

/-- A child declares a tester. -/
structure Declares (extension child : Node) (d : Descriptor) : Prop where
  contributor : said? extension child "contributor" = some d.contributor
  id : said? extension child "id" = some d.id
  typeName : said? extension child "type" = some d.typeName
  namespaceName : said? extension child "namespace" = some d.namespaceName
  properties : (said? extension child "properties").map normalize = some d.propertyText
  className : said? extension child "class" = some d.className

/-- The children of an extension that declare testers. -/
def declaring (extension : Node) : List Node := extension.children.filter (·.name == tag)

theorem mem_declaring : child ∈ declaring extension ↔
    child ∈ extension.children ∧ child.name = "propertyTester" := by
  rw [declaring, List.mem_filter, beq_iff_eq, tag]

/-- A child leaves nothing out if all parts are said. -/
theorem missing?_eq_none_iff :
    missing? extension child = none ↔ ∀ part ∈ mandatory, said? extension child part ≠ none := by
  simp [missing?, Option.isNone_iff_eq_none]

/-! ## Reading a tester -/

/-- Reading a part of a child gives what it says, or the fault that it leaves the part out. -/
def readPart (extension child : Node) (part : String) : Except Fault String :=
  match said? extension child part with
  | some text => .ok text
  | none => .error (.missingAttribute child.name part)

/-- The descriptor with the mandatory parts in their order. -/
def ofParts : List String → Descriptor
  | [contributor, id, typeName, namespaceName, properties, className] =>
    ofFields id typeName namespaceName properties className contributor
  | _ => ofFields "" "" "" "" "" ""

theorem readPart_attribute {attr : String} (h : attr ≠ "contributor") :
    readPart extension child attr = child.require attr := by
  have hsaid : said? extension child attr = child.attribute? attr := if_neg h
  unfold readPart Node.require
  cases hattribute : child.attribute? attr <;> rw [hsaid, hattribute]

/-- **A child is read part by part**, in the order of the mandatory ones. -/
theorem ofNode_eq (extension child : Node) :
    ofNode child extension.contributor =
      (mandatory.mapM (readPart extension child)).map ofParts := by
  have hcontributor : readPart extension child "contributor" =
      match child.contributor.or extension.contributor with
      | some c => .ok c
      | none => .error (.missingAttribute child.name "contributor") := rfl
  have hattribute (attr : String) (h : attr ≠ "contributor" := by decide) :
      readPart extension child attr = child.require attr := readPart_attribute h
  rw [ofNode, ← hattribute "id", ← hattribute "type", ← hattribute "namespace",
    ← hattribute "properties", ← hattribute "class"]
  simp only [mandatory, List.mapM_cons, List.mapM_nil, hcontributor]
  -- the first part that is left out ends the reading on both sides
  cases child.contributor.or extension.contributor with
  | none => rfl
  | some contributor =>
  cases readPart extension child "id" with
  | error f => rfl
  | ok id =>
  cases readPart extension child "type" with
  | error f => rfl
  | ok typeName =>
  cases readPart extension child "namespace" with
  | error f => rfl
  | ok namespaceName =>
  cases readPart extension child "properties" with
  | error f => rfl
  | ok properties => cases readPart extension child "class" <;> rfl

theorem readPart_eq_ok_iff {text : String} :
    readPart extension child part = .ok text ↔ said? extension child part = some text := by
  rw [readPart]
  cases said? extension child part <;> simp

theorem readPart_of_none (h : said? extension child part = none) :
    readPart extension child part = .error (.missingAttribute child.name part) := by
  rw [readPart, h]

/-- The first part that is left out is the fault of a child. -/
theorem ofNode_of_missing (h : missing? extension child = some part) :
    ofNode child extension.contributor = .error (.missingAttribute child.name part) := by
  obtain ⟨hpart, before, after, hparts, hbefore⟩ := List.find?_eq_some_iff_append.1 h
  have hread : mandatory.mapM (readPart extension child) =
      .error (.missingAttribute child.name part) := by
    refine mapM_eq_error_iff.2 ⟨before, part, after, hparts, fun p hp => ?_, ?_⟩
    · have hsaid : (said? extension child p).isSome = true := by simpa using hbefore p hp
      obtain ⟨text, htext⟩ := Option.isSome_iff_exists.1 hsaid
      exact ⟨text, readPart_eq_ok_iff.2 htext⟩
    · exact readPart_of_none (Option.isNone_iff_eq_none.1 hpart)
  rw [ofNode_eq, hread]
  rfl

/-- A child that leaves nothing out declares what is read. -/
theorem ofNode_of_complete (h : missing? extension child = none) :
    ∃ d, ofNode child extension.contributor = .ok d ∧ Declares extension child d := by
  have hsaid (part : String) (hpart : part ∈ mandatory) :
      ∃ text, said? extension child part = some text :=
    Option.ne_none_iff_exists'.1 (missing?_eq_none_iff.1 h part hpart)
  obtain ⟨contributor, hcontributor⟩ := hsaid "contributor" (by decide)
  obtain ⟨id, hid⟩ := hsaid "id" (by decide)
  obtain ⟨typeName, htype⟩ := hsaid "type" (by decide)
  obtain ⟨namespaceName, hnamespace⟩ := hsaid "namespace" (by decide)
  obtain ⟨properties, hproperties⟩ := hsaid "properties" (by decide)
  obtain ⟨className, hclass⟩ := hsaid "class" (by decide)
  have hread : mandatory.mapM (readPart extension child) =
      .ok [contributor, id, typeName, namespaceName, properties, className] := by
    refine mapM_eq_ok_iff.2 ?_
    simp only [mandatory, List.forall₂_cons, readPart_eq_ok_iff]
    exact ⟨hcontributor, hid, htype, hnamespace, hproperties, hclass, .nil⟩
  refine ⟨ofFields id typeName namespaceName properties className contributor, ?_, ?_⟩
  · rw [ofNode_eq, hread]
    rfl
  · exact ⟨hcontributor, hid, htype, hnamespace, congrArg (Option.map normalize) hproperties,
      hclass⟩

/-! ## Reading an extension -/

/-- The first child that leaves something out is the fault of an extension. -/
theorem ofExtension_of_missing {before after : List Node}
    (hchildren : declaring extension = before ++ child :: after)
    (hbefore : ∀ c ∈ before, missing? extension c = none)
    (h : missing? extension child = some part) :
    ofExtension extension = .error (.missingAttribute "propertyTester" part) := by
  have hname : child.name = "propertyTester" := by
    have hmem : child ∈ declaring extension := by simp [hchildren]
    exact (mem_declaring.1 hmem).2
  refine mapM_eq_error_iff.2 ⟨before, child, after, hchildren, fun c hc => ?_, ?_⟩
  · obtain ⟨d, hd, -⟩ := ofNode_of_complete (hbefore c hc)
    exact ⟨d, hd⟩
  · rw [ofNode_of_missing h, hname]

/-- If there is none, the extension declares a tester by each of the children. -/
theorem ofExtension_of_complete (h : ∀ c ∈ declaring extension, missing? extension c = none) :
    ∃ ds, ofExtension extension = .ok ds ∧
      List.Forall₂ (Declares extension) (declaring extension) ds := by
  suffices hread : ∀ cs ⊆ declaring extension, ∃ ds,
      cs.mapM (fun c => ofNode c extension.contributor) = .ok ds ∧
        List.Forall₂ (Declares extension) cs ds from hread _ (List.Subset.refl _)
  intro cs hcs
  induction cs with
  | nil => exact ⟨[], rfl, .nil⟩
  | cons c cs ih =>
    obtain ⟨d, hd, hdeclares⟩ := ofNode_of_complete (h c (hcs List.mem_cons_self))
    obtain ⟨ds, hds, hall⟩ := ih fun c' hc' => hcs (List.mem_cons_of_mem c hc')
    refine ⟨d :: ds, ?_, .cons hdeclares hall⟩
    have hcons := mapM_cons_of_ok (f := fun c => ofNode c extension.contributor) hd cs
    rw [hcons, hds]
    rfl

/-- Either there is a first child that leaves something out, or none does. -/
theorem exists_first_missing (extension : Node) :
    (∃ before child after part, declaring extension = before ++ child :: after ∧
      (∀ c ∈ before, missing? extension c = none) ∧ missing? extension child = some part) ∨
    ∀ c ∈ declaring extension, missing? extension c = none := by
  cases hfirst : (declaring extension).find? fun c => (missing? extension c).isSome with
  | none =>
    refine .inr fun c hc => ?_
    simpa using List.find?_eq_none.1 hfirst c hc
  | some child =>
    obtain ⟨hchild, before, after, hchildren, hbefore⟩ := List.find?_eq_some_iff_append.1 hfirst
    obtain ⟨part, hpart⟩ := Option.isSome_iff_exists.1 hchild
    exact .inl ⟨before, child, after, part, hchildren, by simpa using hbefore, hpart⟩

/-- **An extension has a fault exactly if a child leaves something out.** -/
theorem ofExtension_eq_error_iff (extension : Node) :
    (∃ f, ofExtension extension = .error f) ↔
      ∃ c ∈ declaring extension, ∃ part ∈ mandatory, said? extension c part = none := by
  rcases exists_first_missing extension with
    ⟨before, child, after, part, hchildren, hbefore, hpart⟩ | hall
  · have hmem : child ∈ declaring extension := by simp [hchildren]
    have hpart' := List.find?_some hpart
    exact iff_of_true ⟨_, ofExtension_of_missing hchildren hbefore hpart⟩
      ⟨child, hmem, part, List.mem_of_find?_eq_some hpart, Option.isNone_iff_eq_none.1 hpart'⟩
  · obtain ⟨ds, hds, -⟩ := ofExtension_of_complete hall
    refine iff_of_false ?_ ?_
    · rintro ⟨f, hf⟩
      rw [hds] at hf
      cases hf
    · rintro ⟨c, hc, part, hpart, hsaid⟩
      exact missing?_eq_none_iff.1 (hall c hc) part hpart hsaid

end Descriptor

namespace Registry

/-- A tester stands behind those of its type, and those of other types stay. -/
theorem registrations_register (r : Registry) (d : Descriptor) (t : String) :
    (r.register d).registrations t = r.registrations t ++ [d].filter (·.typeName == t) := by
  rw [registrations, register, NameMap.find?_insert]
  by_cases ht : t = d.typeName
  · simp [ht]
  · simp [ht, Ne.symm ht, registrations]

/-- **Testers are registered behind those of their types, in their order.** -/
theorem registrations_add (r : Registry) (ds : List Descriptor) (t : String) :
    (r.add ds).registrations t = r.registrations t ++ ds.filter (·.typeName == t) := by
  have hfold : (ds.foldl register r).registrations t =
      r.registrations t ++ ds.filter (·.typeName == t) := by
    induction ds generalizing r with
    | nil => rw [List.foldl_nil, List.filter_nil, List.append_nil]
    | cons d ds ih =>
      rw [List.foldl_cons, ih, registrations_register, List.append_assoc, ← List.filter_append,
        List.singleton_append]
  exact hfold

end Registry

namespace Engine

open Descriptor

/-- **Testers of an extension are registered all or not at all.** Registering fails exactly if a
child that declares a tester leaves out one of the mandatory parts, the contributor being that of
the extension if the child does not say it. The fault is then that of the first such child, about
the first part that it leaves out, and the engine is as it was. Otherwise the testers are counted
and registered behind those of their types in the order of the children; the nodes and the cache are
forgotten, and nothing else changes but for a line in the journal. Children of other names do not
count. -/
theorem addTestersFrom_all_or_nothing (e : Engine) (extension : Node) :
    ((∃ f, (addTestersFrom extension e).1 = .error f) ↔
      ∃ c ∈ extension.children, c.name = "propertyTester" ∧
        ∃ part ∈ mandatory, said? extension c part = none) ∧
    (∀ before child after part,
      declaring extension = before ++ child :: after →
      (∀ c ∈ before, missing? extension c = none) → missing? extension child = some part →
      addTestersFrom extension e = (.error (.missingAttribute "propertyTester" part), e)) ∧
    ((∀ c ∈ declaring extension, missing? extension c = none) →
      ∃ ds e', List.Forall₂ (Declares extension) (declaring extension) ds ∧
        addTestersFrom extension e = (.ok (declaring extension).length, e') ∧
        (∀ t, e'.registry.registrations t =
          e.registry.registrations t ++ ds.filter (·.typeName == t)) ∧
        e'.registry.nodes = {} ∧
        e'.registry.cache = { capacity := e.registry.cache.capacity } ∧
        e' = { e with
          registry := e'.registry, journal := e.journal ++ [.noted .registryChanged] }) ∧
    (∀ other : Node, other.contributor = extension.contributor →
      declaring other = declaring extension →
      addTestersFrom other e = addTestersFrom extension e) := by
  have hrun : addTestersFrom extension e =
      match ofExtension extension with
      | .error f => (.error f, e)
      | .ok ds => (.ok ds.length, addTesters ds e) := by
    rw [addTestersFrom, Act.bind_apply, Act.ofExcept_apply]
    cases ofExtension extension <;> rfl
  refine ⟨?fails, ?fault, ?registers, ?others⟩
  case fails =>
    have hiff := ofExtension_eq_error_iff extension
    simp only [mem_declaring, and_assoc] at hiff
    rw [← hiff, hrun]
    cases ofExtension extension <;> simp
  case fault =>
    intro before child after part hchildren hbefore hpart
    rw [hrun, ofExtension_of_missing hchildren hbefore hpart]
  case registers =>
    intro hall
    obtain ⟨ds, hds, hdeclares⟩ := ofExtension_of_complete hall
    refine ⟨ds, addTesters ds e, hdeclares, ?_, Registry.registrations_add e.registry ds, rfl, ?_,
      rfl⟩
    · rw [hrun, hds, hdeclares.length_eq]
    · have hcapacity := Registry.add_capacity e.registry ds
      rw [← hcapacity]
      rfl
  case others =>
    intro other hcontributor hdeclaring
    have hread : ofExtension other = ofExtension extension := by
      rw [declaring, declaring] at hdeclaring
      rw [ofExtension, ofExtension, hcontributor, hdeclaring]
    rw [addTestersFrom, addTestersFrom, hread]

/-- A child that declares a tester by the given attributes. -/
def testerChild (attributes : List (String × String)) (contributor : Option String) : Node :=
  .mk "propertyTester" (attributes.map fun a => (a.1, some a.2)) [] contributor

/-- An extension of two testers, of which the second one has the given class. -/
def pairExtension (className : List (String × String)) : Node :=
  .mk "extension" []
    [testerChild [("id", "a"), ("type", "string"), ("namespace", "ns"), ("properties", "p"),
      ("class", "C")] none,
    .mk "remark" [] [] none,
    testerChild ([("id", "b"), ("type", "string"), ("namespace", "ns"), ("properties", "q")] ++
      className) (some "other")]
    (some "own")

/-- Without the class of one of them, none is registered; with it, both are. -/
theorem addTestersFrom_all_or_nothing_pair :
    addTestersFrom (pairExtension []) {} =
        (.error (.missingAttribute "propertyTester" "class"), ({} : Engine)) ∧
      (addTestersFrom (pairExtension [("class", "D")]) {}).1 = .ok 2 := by
  constructor
  · obtain ⟨-, hfault, -⟩ := addTestersFrom_all_or_nothing {} (pairExtension [])
    exact hfault [_] _ [] "class" rfl (by decide) (by decide)
  · obtain ⟨-, -, hregisters, -⟩ :=
      addTestersFrom_all_or_nothing {} (pairExtension [("class", "D")])
    obtain ⟨ds, e', -, hrun, -⟩ := hregisters (by decide)
    rw [hrun]
    rfl

end Engine

end Enablement
