import Enablement.Engine.Access
import Enablement.Proofs.Access.Laws
import Enablement.Proofs.Definitions
/-!
# Access — what an expression looks at, by itself

An access record is collected by adding to a record that is passed along while definitions are
converted. What an expression adds is a record of its own (`Expr.looks`), which follows the tree and
takes what references look at as a parameter. For definitions without cycles the depth to which
references are followed is enough: what a reference looks at is what its definition looks at
(`looksOf_eq`).
-/

namespace Enablement

namespace Expr

mutual

/-- What an expression looks at, given what its linked references look at. -/
def looks (link : String → Access) : Expr → Access
  | .and cs => looksAll link cs
  | .or cs => looksAll link cs
  | .not c => looks link c
  | .enablement cs => looksAll link cs
  | .withVariable x cs => .mergeRebound {} x (looksAll link cs)
  | .resolve x _ cs => .mergeRebound {} x (looksAll link cs)
  | .adapt _ cs => (Access.markDefault {}).merge (looksAll link cs)
  | .iterate _ _ cs => (Access.markDefault {}).merge (looksAll link cs)
  | .count _ => .markDefault {}
  | .equals _ => .markDefault {}
  | .systemTest _ _ => .markSystem {}
  | .test q => (Access.markDefault {}).addProperty q.qualified
  | .reference id true => link id
  | .reference _ false => {}
  | .instanceOf _ => .markDefault {}
  | .constant _ => {}
  | .fixed label outcome => .addMisbehaving {} (typeName (.fixed label outcome))
  | .group _ cs => looksAll link cs

def looksAll (link : String → Access) : List Expr → Access
  | [] => {}
  | c :: cs => (looks link c).merge (looksAll link cs)

end

variable {link link' : String → Access}

/-- What children look at depends on what each of them looks at. -/
theorem looksAll_congr {cs : List Expr} (h : ∀ c ∈ cs, c.looks link = c.looks link') :
    looksAll link cs = looksAll link' cs := by
  induction cs with
  | nil => rfl
  | cons c cs ih =>
    rw [looksAll, looksAll, h c List.mem_cons_self, ih fun d hd => h d (List.mem_cons_of_mem c hd)]

/-- **What an expression looks at depends on its references alone.** -/
theorem looks_congr (x : Expr) (h : ∀ id ∈ x.references, link id = link' id) :
    x.looks link = x.looks link' := by
  induction x using Expr.inductionOn with
  | step x ih =>
  have hchild : ∀ c ∈ x.children, c.looks link = c.looks link' := fun c hc =>
    ih c hc fun id hid => h id (mem_references_of_mem_children hc hid)
  have hall : looksAll link x.children = looksAll link' x.children := looksAll_congr hchild
  cases x with
  | not c => exact hchild c List.mem_cons_self
  | reference id linked =>
    cases linked with
    | true => exact h id List.mem_cons_self
    | false => rfl
  | and cs => exact hall
  | or cs => exact hall
  | enablement cs => exact hall
  | group connective cs => exact hall
  | withVariable name cs => exact congrArg (Access.mergeRebound {} name) hall
  | resolve name args cs => exact congrArg (Access.mergeRebound {} name) hall
  | adapt target cs => exact congrArg (Access.merge (Access.markDefault {})) hall
  | iterate connective ifEmpty cs => exact congrArg (Access.merge (Access.markDefault {})) hall
  | _ => rfl

end Expr

/-! ## Collecting -/

/-- A collector adds a given record, as long as names are defined as they were, and changes nothing
about that. -/
def Collector.Adds (e₀ : Engine) (c : Collector) (b : Access) : Prop :=
  ∀ a e, e₀.SameDefinitions e → (c a e).1 = a.merge b ∧ e₀.SameDefinitions (c a e).2

namespace Collector.Adds

variable {e₀ : Engine} {c d : Collector} {a b : Access}

theorem nothing : Adds e₀ .nothing {} := fun a _ he => ⟨a.merge_empty.symm, he⟩

theorem mark {f : Access → Access} (hf : ∀ a, f a = a.merge b) : Adds e₀ (.mark f) b :=
  fun a _ he => ⟨hf a, he⟩

/-- Collectors one after another add both. -/
theorem andThen (hc : Adds e₀ c a) (hd : Adds e₀ d b) : Adds e₀ (.andThen c d) (a.merge b) := by
  intro r e he
  obtain ⟨hr, he'⟩ := hc r e he
  rw [Collector.andThen]
  rcases hrun : c r e with ⟨r', e'⟩
  rw [hrun] at hr he'
  obtain ⟨hr', he''⟩ := hd r' e' he'
  refine ⟨?_, he''⟩
  show (d r' e').1 = _
  rw [hr', show r' = r.merge a from hr, Access.merge_assoc]

theorem rebound (hc : Adds e₀ c b) (name : String) :
    Adds e₀ (.rebound name c) (.mergeRebound {} name b) := by
  intro r e he
  obtain ⟨hr, he'⟩ := hc {} e he
  rw [Collector.rebound]
  rcases hrun : c {} e with ⟨r', e'⟩
  rw [hrun] at hr he'
  refine ⟨?_, he'⟩
  show r.mergeRebound name r' = _
  rw [show r' = Access.merge {} b from hr, Access.empty_merge, Access.mergeRebound_eq]

end Collector.Adds

namespace Expr

variable {e₀ : Engine} {link : String → Access} {collect : String → Collector}

theorem collectorAll_adds {cs : List Expr}
    (h : ∀ c ∈ cs, (c.collector collect).Adds e₀ (c.looks link)) :
    (collectorAll collect cs).Adds e₀ (looksAll link cs) := by
  induction cs with
  | nil => exact .nothing
  | cons c cs ih =>
    exact (h c List.mem_cons_self).andThen (ih fun d hd => h d (List.mem_cons_of_mem c hd))

/-- **An expression adds what it looks at**, if its references do. -/
theorem collector_adds (hlink : ∀ id, (collect id).Adds e₀ (link id)) (x : Expr) :
    (x.collector collect).Adds e₀ (x.looks link) := by
  induction x using Expr.inductionOn with
  | step x ih =>
  have hall : (collectorAll collect x.children).Adds e₀ (looksAll link x.children) :=
    collectorAll_adds ih
  cases x with
  | and cs => exact hall
  | or cs => exact hall
  | not c => exact ih c List.mem_cons_self
  | enablement cs => exact hall
  | withVariable name cs => exact hall.rebound name
  | resolve name args cs => exact hall.rebound name
  | adapt target cs => exact (Collector.Adds.mark Access.markDefault_eq).andThen hall
  | iterate connective ifEmpty cs => exact (Collector.Adds.mark Access.markDefault_eq).andThen hall
  | count mode => exact .mark Access.markDefault_eq
  | equals v => exact .mark Access.markDefault_eq
  | systemTest property value => exact .mark Access.markSystem_eq
  | test q =>
    refine .mark fun a => ?_
    rw [Access.addProperty_eq, Access.markDefault_eq, Access.merge_assoc, ← Access.addProperty_eq]
    rfl
  | reference id linked =>
    cases linked with
    | true => exact hlink id
    | false => exact .nothing
  | instanceOf t => exact .mark Access.markDefault_eq
  | constant b => exact .nothing
  | fixed label outcome => exact .mark fun a => Access.addMisbehaving_eq a _
  | group connective cs => exact hall

end Expr

/-! ## References -/

namespace Engine

/-- What a linked reference looks at when definitions may be entered to a depth. -/
def looksWithin (e : Engine) : Nat → String → Access
  | 0, _ => {}
  | depth + 1, id =>
    match e.defined id with
    | .ok x => x.looks (e.looksWithin depth)
    | .error _ => {}

/-- What a linked reference looks at. -/
def looksOf (e : Engine) : String → Access := e.looksWithin e.referenceDepth

variable {e : Engine}

/-- Entering definitions deeper than the rank of a reference finds nothing more. -/
theorem looksWithin_eq_of_rank {rank : String → ℕ}
    (hrank : ∀ id x, e.defined id = .ok x → ∀ id' ∈ x.references, rank id' < rank id)
    (depth depth' : ℕ) (id : String) (h : rank id < depth) (h' : rank id < depth') :
    e.looksWithin depth id = e.looksWithin depth' id := by
  induction depth generalizing depth' id with
  | zero => omega
  | succ depth ih =>
    obtain _ | depth' := depth'
    · omega
    · rw [looksWithin, looksWithin]
      cases hx : e.defined id with
      | error f => rfl
      | ok x =>
        refine x.looks_congr fun id' hid' => ?_
        have hlt := hrank id x hx id' hid'
        exact ih depth' id' (by omega) (by omega)

/-- **A reference looks at what its definition looks at.** -/
theorem DefinitionsAcyclic.looksOf_eq (h : e.DefinitionsAcyclic) {id : String} {x : Expr}
    (hx : e.defined id = .ok x) : e.looksOf id = x.looks e.looksOf := by
  obtain ⟨rank, hbound, hrank⟩ := h.exists_rank
  have hunfold : e.looksOf id = x.looks (e.looksWithin (e.definitions.elements.size +
      e.definitions.expressions.size)) := by
    rw [looksOf, referenceDepth, looksWithin, hx]
  rw [hunfold]
  -- the definition is entered at one depth less, and its references have lower ranks
  refine x.looks_congr fun id' hid' => looksWithin_eq_of_rank hrank _ _ id' ?_ (hbound id')
  have hlt := hrank id x hx id' hid'
  have hid : rank id < e.definitions.elements.size + e.definitions.expressions.size + 1 := hbound id
  omega

/-- Collecting enters definitions as far as they are looked at. -/
theorem collectWithin_adds (e₀ : Engine) (depth : Nat) (id : String) :
    (collectWithin depth id).Adds e₀ (e₀.looksWithin depth id) := by
  induction depth generalizing id with
  | zero => exact .nothing
  | succ depth ih =>
    intro a e he
    have hfst := definition_fst id e
    have hkept := (steady_sameDefinitions e₀).definition id e he
    rw [he.defined id] at hfst
    rw [looksWithin, ← hfst]
    unfold collectWithin
    generalize definition id e = ended at hkept ⊢
    obtain ⟨f | x, e'⟩ := ended
    · exact ⟨a.merge_empty.symm, hkept⟩
    · exact x.collector_adds ih a e' hkept

/-- **The access record of an expression is what it looks at.** -/
theorem access_fst (x : Expr) (e : Engine) : (access x e).1 = x.looks e.looksOf := by
  obtain ⟨hadds, -⟩ :=
    x.collector_adds (collectWithin_adds e e.referenceDepth) {} e (SameDefinitions.refl e)
  exact hadds.trans (Access.empty_merge _)

end Engine

end Enablement
