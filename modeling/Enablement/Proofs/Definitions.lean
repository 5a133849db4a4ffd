import Enablement.Proofs.Rank
import Enablement.Proofs.Registry.Run
/-!
# Definitions — what names stand for

What a name is defined as does not depend on whether the definition has been converted, so lookups
and evaluation change nothing about it (`steady_sameDefinitions`). Where no definition leads back to
itself through references, a chain of them is no longer than there are definitions.
-/

namespace Enablement

namespace Definitions

variable {d : Definitions} {c : Converter} {id : String}

/-- Nothing is converted if there is an expression already, or no element. -/
theorem expression_of_find? {x : Expr} (h : d.expressions.find? id = some x) :
    d.expression c id = (.ok x, d) := by
  rw [expression, h]

theorem expression_of_none (h : d.expressions.find? id = none) (he : d.elements.find? id = none) :
    d.expression c id = (.error (.definitionNotFound id), d) := by
  rw [expression, h, he]

/-- What an element is converted to is kept. -/
theorem expression_of_element {element : Element} (h : d.expressions.find? id = none)
    (he : d.elements.find? id = some element) :
    d.expression c id = (convertElement c id element,
      match convertElement c id element with
      | .ok x => { d with expressions := d.expressions.insert id x }
      | .error _ => d) := by
  rw [expression, h, he]
  dsimp only
  cases convertElement c id element with
  | ok x => rfl
  | error f => rfl

/-- Conversion touches no element. -/
theorem expression_elements (d : Definitions) (c : Converter) (id : String) :
    (d.expression c id).2.elements = d.elements := by
  cases hx : d.expressions.find? id with
  | some x => rw [expression_of_find? hx]
  | none =>
    cases he : d.elements.find? id with
    | none => rw [expression_of_none hx he]
    | some element =>
      rw [expression_of_element hx he]
      dsimp only
      cases convertElement c id element with
      | ok x => rfl
      | error f => rfl

/-- What a definition stands for is found under its name. -/
theorem expression_fst_congr {d' : Definitions}
    (hx : d'.expressions.find? id = d.expressions.find? id)
    (he : d'.elements.find? id = d.elements.find? id) :
    (d'.expression c id).1 = (d.expression c id).1 := by
  rw [expression, expression, hx, he]
  cases d.expressions.find? id with
  | some x => rfl
  | none =>
    cases d.elements.find? id with
    | none => rfl
    | some element =>
      dsimp only
      cases convertElement c id element with
      | ok x => rfl
      | error f => rfl

/-- **Asking for a definition changes none.** -/
theorem expression_expression (d : Definitions) (c : Converter) (id id' : String) :
    ((d.expression c id).2.expression c id').1 = (d.expression c id').1 := by
  cases hx : d.expressions.find? id with
  | some x => rw [expression_of_find? hx]
  | none =>
    cases he : d.elements.find? id with
    | none => rw [expression_of_none hx he]
    | some element =>
      rw [expression_of_element hx he]
      cases hc : convertElement c id element with
      | error f => rfl
      | ok x =>
        -- the expression is kept under `id`, where the element gives the same
        by_cases hid : id' = id
        · subst hid
          rw [expression_of_element hx he, hc, expression_of_find?]
          exact NameMap.find?_insert_self _ _ _
        · refine expression_fst_congr ?_ rfl
          exact NameMap.find?_insert_of_ne hid _ _

end Definitions

namespace Engine

/-- What a name is defined as. -/
def defined (e : Engine) (id : String) : Except Fault Expr :=
  (e.definitions.expression e.converter id).1

/-- Names are defined in an engine as in another one. -/
structure SameDefinitions (e e' : Engine) : Prop where
  handlers : e'.handlers = e.handlers
  defined : ∀ id, e'.defined id = e.defined id

theorem SameDefinitions.refl (e : Engine) : SameDefinitions e e := ⟨rfl, fun _ => rfl⟩

variable {e e' e'' : Engine}

theorem SameDefinitions.trans (h : SameDefinitions e e') (h' : SameDefinitions e' e'') :
    SameDefinitions e e'' :=
  ⟨h'.handlers.trans h.handlers, fun id => (h'.defined id).trans (h.defined id)⟩

/-- They are if nothing about the definitions has changed. -/
theorem SameDefinitions.congr {e₀ : Engine} (h : SameDefinitions e₀ e)
    (hd : e'.definitions = e.definitions) (hh : e'.handlers = e.handlers) :
    SameDefinitions e₀ e' := by
  refine ⟨hh.trans h.handlers, fun id => ?_⟩
  rw [← h.defined id, Engine.defined, Engine.defined, converter, converter, hd, hh]

/-- Asking for a definition answers with it. -/
theorem definition_fst (id : String) (e : Engine) : (definition id e).1 = e.defined id := by
  obtain ⟨notes, hd⟩ := definition_eq id e
  rw [hd]
  rfl

/-- So what is answered with was defined before. -/
theorem SameDefinitions.defined_of_definition {e₀ : Engine} (h : SameDefinitions e₀ e) {id : String}
    {x : Expr} (hx : (definition id e).1 = .ok x) : e₀.defined id = .ok x := by
  rw [← h.defined id, ← definition_fst]
  exact hx

/-- **Lookups, definitions and events change nothing about what names stand for.** -/
theorem steady_sameDefinitions (e₀ : Engine) : Steady (SameDefinitions e₀) where
  record _ _ _ he := he.congr rfl rfl
  resolve receiver namespaceName property force e he := by
    obtain ⟨_, _, hs⟩ := resolve_shows receiver namespaceName property force e
    exact he.congr hs.definitions hs.handlers
  definition id e he := by
    obtain ⟨notes, hd⟩ := definition_eq id e
    rw [hd]
    refine ⟨he.handlers, fun id' => ?_⟩
    exact (Definitions.expression_expression e.definitions e.converter id id').trans
      (he.defined id')

/-! ## Chains of references -/

/-- A definition refers to another one. -/
def RefersTo (e : Engine) (id id' : String) : Prop :=
  ∃ x, e.defined id = .ok x ∧ id' ∈ x.references

/-- No definition leads back to itself. -/
def DefinitionsAcyclic (e : Engine) : Prop := NoCycle e.RefersTo

/-- Nor does one where names are defined as there. -/
theorem DefinitionsAcyclic.congr (h : e.DefinitionsAcyclic) (he : e.SameDefinitions e') :
    e'.DefinitionsAcyclic :=
  h.mono fun id _ ⟨x, hx, hid'⟩ => ⟨x, he.defined id ▸ hx, hid'⟩

/-- A name that is defined is registered. -/
theorem mem_names_of_defined {id : String} {x : Expr} (h : e.defined id = .ok x) :
    id ∈ e.definitions.elements.names ++ e.definitions.expressions.names := by
  rw [defined, Definitions.expression] at h
  rw [List.mem_append]
  cases hx : e.definitions.expressions.find? id with
  | some y => exact .inr (NameMap.mem_names_of_find? hx)
  | none =>
    cases he : e.definitions.elements.find? id with
    | some element => exact .inl (NameMap.mem_names_of_find? he)
    | none =>
      rw [hx, he] at h
      cases h

/-- **References are followed as far as they can lead** without going in circles. -/
theorem exists_rank_lt_referenceDepth {leads : String → String → Prop} (h : NoCycle leads)
    (hrefers : ∀ id id', leads id id' → e.RefersTo id id') :
    ∃ rank : String → ℕ, (∀ id, rank id < e.referenceDepth) ∧
      ∀ id id', leads id id' → rank id' < rank id := by
  let names := e.definitions.elements.names ++ e.definitions.expressions.names
  obtain ⟨rank, hle, hlt⟩ := Enablement.exists_rank h names.toFinset fun id id' hleads => by
    obtain ⟨x, hx, -⟩ := hrefers id id' hleads
    exact List.mem_toFinset.2 (mem_names_of_defined hx)
  refine ⟨rank, fun id => ?_, hlt⟩
  have hcard := names.toFinset_card_le
  have hlength : names.length = e.definitions.elements.size + e.definitions.expressions.size := by
    simp only [names, List.length_append, NameMap.names, List.length_map, NameMap.size]
  have hid := hle id
  show rank id < e.definitions.elements.size + e.definitions.expressions.size + 1
  omega

/-- **Without cycles, a definition is ranked above those that it refers to**, and all ranks are
below the depth to which references are followed. -/
theorem DefinitionsAcyclic.exists_rank (h : e.DefinitionsAcyclic) :
    ∃ rank : String → ℕ, (∀ id, rank id < e.referenceDepth) ∧
      ∀ id x, e.defined id = .ok x → ∀ id' ∈ x.references, rank id' < rank id := by
  obtain ⟨rank, hbound, hlt⟩ := exists_rank_lt_referenceDepth h fun _ _ hr => hr
  exact ⟨rank, hbound, fun id x hx id' hid' => hlt id id' ⟨x, hx, hid'⟩⟩

/-! ## A single definition -/

variable {d : String} {x : Expr}

/-- Where one expression is registered, its name is defined as that. -/
theorem defined_of_single (h : e.definitions = { expressions := .ofList [(d, x)] }) (id : String) :
    e.defined id = if id = d then .ok x else .error (.definitionNotFound id) := by
  have hfind : (NameMap.ofList [(d, x)]).find? id = if id = d then some x else none :=
    NameMap.find?_insert _ _ _ _
  rw [defined, h, Definitions.expression, hfind]
  by_cases hid : id = d
  · rw [if_pos hid, if_pos hid]
  · rw [if_neg hid, if_neg hid]
    rfl

/-- There is no other. -/
theorem eq_of_single (h : e.definitions = { expressions := .ofList [(d, x)] }) {id : String}
    {y : Expr} (hy : e.defined id = .ok y) : y = x := by
  rw [defined_of_single h] at hy
  split at hy
  · exact (Except.ok.inj hy).symm
  · cases hy

/-- Without references it leads nowhere. -/
theorem acyclic_of_single (h : e.definitions = { expressions := .ofList [(d, x)] })
    (hx : x.references = []) : e.DefinitionsAcyclic := by
  refine noCycle_of_rank (fun _ => 0) fun id id' hr => ?_
  obtain ⟨y, hy, hid'⟩ := hr
  rw [eq_of_single h hy, hx] at hid'
  cases hid'

/-! ## Two definitions -/

/-- Ranks of the registered names show that no definition leads back to itself. -/
theorem acyclic_of_rank (rank : String → ℕ)
    (h : ∀ id ∈ e.definitions.elements.names ++ e.definitions.expressions.names, ∀ x,
      e.defined id = .ok x → ∀ id' ∈ x.references, rank id' < rank id) : e.DefinitionsAcyclic :=
  noCycle_of_rank rank fun id id' ⟨x, hx, hid'⟩ => h id (mem_names_of_defined hx) x hx id' hid'

/-- An engine where `list` asks whether a value has elements, and `lists` refers to it for each
element of a value. Neither has been converted. -/
def nestedLists : Engine :=
  { definitions := { elements := .ofList [
      ("list", .mk "definition" {} [.mk "count" (.ofList [("value", "+")]) [] none] none),
      ("lists", .mk "definition" {} [.mk "iterate" {}
        [.mk "reference" (.ofList [("definitionId", "list")]) [] none] none] none)] } }

theorem defined_nestedLists :
    nestedLists.defined "list" = .ok (.count .oneOrMore) ∧
      nestedLists.defined "lists" = .ok (.iterate .and none [.reference "list" true]) :=
  ⟨rfl, rfl⟩

theorem nestedLists_acyclic : nestedLists.DefinitionsAcyclic := by
  refine acyclic_of_rank (fun id => if id = "lists" then 1 else 0) fun id hid x hx id' hid' => ?_
  have hnames : id ∈ ["list", "lists"] := hid
  obtain ⟨hlist, hlists⟩ := defined_nestedLists
  obtain rfl | rfl := List.mem_pair.1 hnames
  · rw [hlist] at hx
    cases hx
    cases hid'
  · rw [hlists] at hx
    cases hx
    obtain rfl := List.mem_singleton.1 hid'
    decide

end Engine

end Enablement
