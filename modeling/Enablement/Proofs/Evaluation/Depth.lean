import Enablement.Proofs.Evaluation.Abreast
import Enablement.Proofs.Evaluation.Journal
import Enablement.Proofs.Registry.Depth
/-!
# Evaluation — how deep definitions are entered

Evaluation enters definitions to a depth, and so does collecting what an expression looks at;
lookups search the type hierarchy to a depth. What would be done beyond these depths can be anything
at all (`Engine.Beyond`). Where no definition that an expression leads to refers back to itself,
definitions have ranks that go down along references, and likewise types along supertypes. So
nothing is ever done beyond the depths that the definitions and the registry give, and greater
depths come to the same (`Engine.depths_suffice`).
-/

namespace Enablement

open Relation

/-! ## Collectors that do the same -/

namespace Collector

variable {P : Engine → Prop} {c c' d d' : Collector}

/-- Two collectors do the same wherever a property holds, and keep it. -/
def SameOn (P : Engine → Prop) (c c' : Collector) : Prop :=
  ∀ a e, P e → c' a e = c a e ∧ P (c a e).2

namespace SameOn

theorem nothing : SameOn P .nothing .nothing := fun _ _ he => ⟨rfl, he⟩

theorem mark (f : Access → Access) : SameOn P (.mark f) (.mark f) := fun _ _ he => ⟨rfl, he⟩

theorem andThen (hc : SameOn P c c') (hd : SameOn P d d') :
    SameOn P (.andThen c d) (.andThen c' d') := by
  intro a e he
  obtain ⟨hsame, hkept⟩ := hc a e he
  rw [Collector.andThen, Collector.andThen, hsame]
  exact hd _ _ hkept

theorem rebound (hc : SameOn P c c') (name : String) :
    SameOn P (.rebound name c) (.rebound name c') := by
  intro a e he
  obtain ⟨hsame, hkept⟩ := hc {} e he
  rw [Collector.rebound, Collector.rebound, hsame]
  exact ⟨rfl, hkept⟩

end SameOn

end Collector

namespace Expr

variable {P : Engine → Prop} {link link' : String → Collector}

/-- **Collecting does the same if it does at the references.** -/
theorem collector_sameOn (x : Expr)
    (h : ∀ id ∈ x.references, (link id).SameOn P (link' id)) :
    (x.collector link).SameOn P (x.collector link') := by
  induction x using Expr.inductionOn with
  | step x ih =>
  have hchild : ∀ c ∈ x.children, (c.collector link).SameOn P (c.collector link') := fun c hc =>
    ih c hc fun id hid => h id (mem_references_of_mem_children hc hid)
  have hall : ∀ {cs : List Expr}, (∀ c ∈ cs, (c.collector link).SameOn P (c.collector link')) →
      (collectorAll link cs).SameOn P (collectorAll link' cs) := by
    intro cs hcs
    induction cs with
    | nil => exact .nothing
    | cons c cs ih =>
      obtain ⟨hc, hcs⟩ := List.forall_mem_cons.1 hcs
      exact hc.andThen (ih hcs)
  cases x with
  | and cs => exact hall hchild
  | or cs => exact hall hchild
  | not c => exact hchild c List.mem_cons_self
  | enablement cs => exact hall hchild
  | withVariable name cs => exact (hall hchild).rebound name
  | resolve name args cs => exact (hall hchild).rebound name
  | adapt target cs => exact (Collector.SameOn.mark _).andThen (hall hchild)
  | iterate o ifEmpty cs => exact (Collector.SameOn.mark _).andThen (hall hchild)
  | reference id linked =>
    cases linked with
    | true => exact h id (mem_references_reference id true)
    | false => exact .nothing
  | constant b => exact .nothing
  | group o cs => exact hall hchild
  | count _ | equals _ | systemTest _ _ | test _ | instanceOf _ | fixed _ _ => exact .mark _

end Expr

namespace Engine

/-! ## Evaluation to a depth -/

/-- What is done where a recursion would have to go deeper than it may. -/
structure Beyond where
  /-- In place of a search that starts from a type. -/
  search : String → Act (Option Handle)
  /-- In place of entering a definition, to evaluate it. -/
  enter : String → Meaning
  /-- In place of entering a definition, to collect what it looks at. -/
  collect : String → Collector

/-- What a reference means when definitions may be entered and types searched to some depths. -/
def linkTo (b : Beyond) (searches : ℕ) : (depth : ℕ) → String → Meaning
  | 0, id => b.enter id
  | depth + 1, id => fun ctx => do
    let x ← definition id
    x.meaningBy (.testBy (resolveTo b.search searches)) (linkTo b searches depth) ctx

/-- Evaluates an expression, entering definitions and searching types to some depths. -/
def evaluateTo (b : Beyond) (searches depth : ℕ) (x : Expr) : Meaning :=
  x.meaningBy (.testBy (resolveTo b.search searches)) (linkTo b searches depth)

/-- What a linked reference adds when definitions may be entered to a depth. -/
def gatherTo (b : Beyond) : (depth : ℕ) → String → Collector
  | 0, id => b.collect id
  | depth + 1, id => fun a e =>
    match definition id e with
    | (.ok x, e) => x.collector (gatherTo b depth) a e
    | (.error _, e) => (a, e)

/-- Adds what an expression looks at, entering definitions to a depth. -/
def collectTo (b : Beyond) (depth : ℕ) (x : Expr) : Collector := x.collector (gatherTo b depth)

/-! ## Where references lead -/

/-- The references of an expression lead to a name, directly or through definitions. -/
def LeadsTo (e : Engine) (x : Expr) (id : String) : Prop :=
  ∃ id₀ ∈ x.references, ReflTransGen e.RefersTo id₀ id

variable {e₀ e : Engine} {x : Expr} {rank : String → ℕ} {searches depth depth' : ℕ} {id : String}

theorem LeadsTo.refers (h : e.LeadsTo x id) {id' : String} (hr : e.RefersTo id id') :
    e.LeadsTo x id' := by
  obtain ⟨id₀, hid₀, hleads⟩ := h
  exact ⟨id₀, hid₀, hleads.tail hr⟩

/-- **Where none of these names leads back to itself, they are ranked** below the depth to which
references are followed. -/
theorem exists_rank_of_leadsTo (h : ∀ id, e.LeadsTo x id → ¬ TransGen e.RefersTo id id) :
    ∃ rank : String → ℕ, (∀ id, rank id < e.referenceDepth) ∧
      ∀ id id', e.LeadsTo x id → e.RefersTo id id' → rank id' < rank id := by
  have hcycle : NoCycle fun id id' => e.LeadsTo x id ∧ e.RefersTo id id' := by
    intro id hid
    obtain ⟨_, ⟨hleads, -⟩, -⟩ := TransGen.head'_iff.1 hid
    exact h id hleads (TransGen.mono (fun _ _ hr => hr.2) _ _ hid)
  obtain ⟨rank, hbound, hlt⟩ := exists_rank_lt_referenceDepth hcycle fun _ _ hr => hr.2
  exact ⟨rank, hbound, fun id id' hleads hr => hlt id id' ⟨hleads, hr⟩⟩

/-! ## The depths suffice -/

/-- What is the same in all engines of a run: what names stand for, and what searches go by. -/
def Steadfast (e₀ e : Engine) : Prop := e₀.SameDefinitions e ∧ e₀.SameSuperTypes e

theorem steady_steadfast (e₀ : Engine) : Steady e₀.Steadfast := by
  refine (steady_sameDefinitions e₀).and ⟨fun _ _ _ he => he, fun _ _ _ _ _ he => ?_,
    definition_keeps fun _ _ _ he => he⟩
  exact (lasting_sameSuperTypes e₀).resolve _ _ _ _ he

section Evaluation

variable (htypes : NoCycle (e₀.registry.Walks e₀.platform))
  (hsearches : e₀.registry.searchDepth e₀.platform ≤ searches)

include htypes hsearches

/-- Questions to testers go abreast, whatever would be done beyond the depth of the registry. -/
theorem test_abreast_testBy (b : Beyond) (q : PropertyTest) :
    (Meaning.test q).Abreast (fun e e' => e' = e ∧ e₀.Steadfast e)
      (.testBy (resolveTo b.search searches) q) := by
  rw [Meaning.test_eq_testBy]
  refine Meaning.testBy_abreast (steady_steadfast e₀).likeness
    (fun receiver namespaceName property force => ?_) q
  refine Act.SameOn.abreast (fun e he => ?_) ((steady_steadfast e₀).resolve _ _ _ _)
  exact resolve_sameOn htypes hsearches b.search receiver namespaceName property force e he.2

/-- **Definitions are entered no deeper than their ranks.** -/
theorem linkWithin_abreast_linkTo (b : Beyond)
    (hrank : ∀ id id', e₀.LeadsTo x id → e₀.RefersTo id id' → rank id' < rank id)
    (hid : e₀.LeadsTo x id) (h : rank id < depth) (h' : rank id < depth') :
    (linkWithin depth id).Abreast (fun e e' => e' = e ∧ e₀.Steadfast e)
      (linkTo b searches depth' id) := by
  have hsteady := steady_steadfast e₀
  induction depth generalizing depth' id with
  | zero => omega
  | succ depth ih =>
    obtain _ | depth' := depth'
    · omega
    · intro ctx
      refine ((Act.SameOn.refl _).abreast (hsteady.definition id)).bind_of_results
        fun e e' d hee' hd => ?_
      have hdefined := hee'.2.1.defined_of_definition hd
      rw [Expr.meaning_eq_meaningBy]
      refine d.meaningBy_abreast hsteady.likeness (test_abreast_testBy htypes hsearches b)
        (fun id' hid' => ?_) ctx
      have hrefers : e₀.RefersTo id id' := ⟨d, hdefined, hid'⟩
      have hlt := hrank id id' hid hrefers
      exact ih (hid.refers hrefers) (by omega) (by omega)

end Evaluation

/-- The same holds of collecting. -/
theorem collectWithin_sameOn (b : Beyond)
    (hrank : ∀ id id', e₀.LeadsTo x id → e₀.RefersTo id id' → rank id' < rank id)
    (hid : e₀.LeadsTo x id) (h : rank id < depth) (h' : rank id < depth') :
    (collectWithin depth id).SameOn e₀.SameDefinitions (gatherTo b depth' id) := by
  induction depth generalizing depth' id with
  | zero => omega
  | succ depth ih =>
    obtain _ | depth' := depth'
    · omega
    · intro a e he
      have hkept := (steady_sameDefinitions e₀).definition id e he
      have hdefined : ∀ d, (definition id e).1 = .ok d → e₀.defined id = .ok d := fun d hd =>
        he.defined_of_definition hd
      unfold gatherTo collectWithin
      generalize definition id e = ended at hkept hdefined ⊢
      obtain ⟨f | d, e'⟩ := ended
      · exact ⟨rfl, hkept⟩
      · refine d.collector_sameOn (fun id' hid' => ?_) a e' hkept
        have hrefers : e₀.RefersTo id id' := ⟨d, hdefined d rfl, hid'⟩
        have hlt := hrank id id' hid hrefers
        exact ih (hid.refers hrefers) (by omega) (by omega)

/-- **The depths suffice.** Where no name that an expression leads to is defined through itself, and
the supertypes that searches go by lead back to no type, it does not matter what would be done
beyond the depths that the definitions and the registry give, or beyond greater ones: evaluation in
every context, collecting what the expression looks at, and lookups of all properties of all
receivers end the same way and leave the same engine behind. So none of them goes any deeper. -/
theorem depths_suffice (hdefinitions : ∀ id, e.LeadsTo x id → ¬ TransGen e.RefersTo id id)
    (htypes : NoCycle (e.registry.Walks e.platform)) (b : Beyond)
    (hdepth : e.referenceDepth ≤ depth)
    (hsearches : e.registry.searchDepth e.platform ≤ searches) :
    (∀ ctx, evaluateTo b searches depth x ctx e = evaluate x ctx e) ∧
    (∀ a, collectTo b depth x a e = collect x a e) ∧
    ∀ receiver namespaceName property force,
      resolveTo b.search searches receiver namespaceName property force e =
        resolve receiver namespaceName property force e := by
  obtain ⟨rank, hbound, hrank⟩ := exists_rank_of_leadsTo hdefinitions
  have hlead : ∀ id ∈ x.references, e.LeadsTo x id := fun id hid => ⟨id, hid, .refl⟩
  refine ⟨fun ctx => ?_, fun a => ?_, fun receiver namespaceName property force => ?_⟩
  · have hmeaning : (x.meaning (linkWithin (e.referenceDepth + maxReentries))).Abreast
        (fun e' e'' => e'' = e' ∧ e.Steadfast e') (evaluateTo b searches depth x) := by
      rw [Expr.meaning_eq_meaningBy]
      refine x.meaningBy_abreast (steady_steadfast e).likeness
        (test_abreast_testBy htypes hsearches b) fun id hid => ?_
      have hid' := hbound id
      exact linkWithin_abreast_linkTo htypes hsearches b hrank (hlead id hid) (by omega) (by omega)
    exact ((hmeaning ctx).eq ⟨.refl e, fun _ => rfl⟩).symm
  · refine (x.collector_sameOn (fun id hid => ?_) a e (SameDefinitions.refl e)).1
    have hid' := hbound id
    exact collectWithin_sameOn b hrank (hlead id hid) hid' (by omega)
  · exact (resolve_sameOn htypes hsearches b.search receiver namespaceName property force e
      fun _ => rfl).symm

/-- A property that is looked up along the hierarchy, in a definition that is entered. -/
theorem propertyDefined_depths_suffice :
    (∀ id, propertyDefined.LeadsTo (.withVariable "v" [.reference "d" true]) id →
        ¬ TransGen propertyDefined.RefersTo id id) ∧
      NoCycle (propertyDefined.registry.Walks propertyDefined.platform) ∧
      propertyDefined.referenceDepth ≤ 2 ∧
      propertyDefined.registry.searchDepth propertyDefined.platform ≤ 2 ∧
      ∀ b ctx, evaluateTo b 2 2 (.withVariable "v" [.reference "d" true]) ctx propertyDefined =
        evaluate (.withVariable "v" [.reference "d" true]) ctx propertyDefined := by
  have hsettled := (Settled.made make_stringEngine).run [.addTesters [ofObjects]]
  have hconsistent : propertyDefined.Consistent := hsettled.consistent.congr rfl rfl
  have hdefinitions : propertyDefined.DefinitionsAcyclic := acyclic_of_single rfl rfl
  have htypes := hconsistent.noCycle_walks stringHost_acyclic
  have hdepth : propertyDefined.referenceDepth ≤ 2 := by decide
  have hsearches : propertyDefined.registry.searchDepth propertyDefined.platform ≤ 2 := by decide
  refine ⟨fun id _ => hdefinitions id, htypes, hdepth, hsearches, fun b => ?_⟩
  exact (depths_suffice (fun id _ => hdefinitions id) htypes b hdepth hsearches).1

end Engine

end Enablement
