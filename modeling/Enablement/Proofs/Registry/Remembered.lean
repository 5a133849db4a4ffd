import Enablement.Proofs.Registry.Invariant
import Enablement.Proofs.Registry.Steps
/-!
# Registry — what searches remember

A search that finds nothing among the testers of a type remembers the type's supertypes and goes on
with them, and what is remembered stays until the registrations change. So a search can be traced in
what it has left behind (`Ends`): whatever types the host declares meanwhile, a search from the same
type goes the same way. `findInherited_ends` says that searches leave this trace, and
`Ends.candidate_eq` that they follow it.
-/

namespace Enablement

open Relation

namespace Registry

variable {r r' r'' : Registry} {p : Platform} {t t' : String} {ss : List String}

/-! ## What is remembered -/

/-- The supertypes of a type, if a search has asked for them. -/
def remembered (r : Registry) (t : String) : Option (List String) := (r.node t).superTypes

/-- A type leads to another one by what is remembered. -/
def Leads (r : Registry) (t super : String) : Prop :=
  ∃ ss, r.remembered t = some ss ∧ super ∈ ss

/-- A type leads to another one by what searches go by: what is remembered, or else what is
declared. -/
def Walks (r : Registry) (p : Platform) (t super : String) : Prop := super ∈ r.superTypes p t

/-- What one registry remembers, another one remembers, too. -/
def RecalledBy (r r' : Registry) : Prop :=
  ∀ t ss, r.remembered t = some ss → r'.remembered t = some ss

/-- What is remembered comes before what is declared. -/
theorem superTypes_of_remembered (h : r.remembered t = some ss) (p : Platform) :
    r.superTypes p t = ss := by
  rw [remembered] at h
  rw [superTypes, h, Option.getD_some]

theorem Leads.walks (h : r.Leads t t') (p : Platform) : r.Walks p t t' := by
  obtain ⟨ss, ht, hs⟩ := h
  rw [Walks, superTypes_of_remembered ht]
  exact hs

/-- Types that searches go on from have a node or are declared. -/
theorem mem_names_of_walks (h : r.Walks p t t') : t ∈ r.nodes.names ++ p.types.names := by
  rw [Walks, superTypes, node] at h
  rw [List.mem_append]
  cases hnode : r.nodes.find? t with
  | some node => exact .inl (NameMap.mem_names_of_find? hnode)
  | none =>
    rw [hnode] at h
    exact .inr (Platform.mem_names_of_inherits h)

/-- **Searches may go as deep as they can lead** without going in circles. -/
theorem exists_rank_lt_searchDepth {leads : String → String → Prop} (h : NoCycle leads)
    (hwalks : ∀ t super, leads t super → r.Walks p t super) :
    ∃ rank : String → ℕ, (∀ t, rank t < r.searchDepth p) ∧
      ∀ t super, leads t super → rank super < rank t := by
  let sources := r.nodes.names ++ p.types.names
  obtain ⟨rank, hle, hlt⟩ := exists_rank h sources.toFinset fun t super hleads =>
    List.mem_toFinset.2 (mem_names_of_walks (hwalks t super hleads))
  refine ⟨rank, fun t => ?_, hlt⟩
  have hcard := sources.toFinset_card_le
  have hlength : sources.length = r.nodes.size + p.types.size := by
    simp only [sources, List.length_append, NameMap.names, List.length_map, NameMap.size]
  have hrank := hle t
  rw [searchDepth]
  omega

@[simp] theorem remembered_setSlots (s : List (Option Handle)) :
    (r.setSlots t s).remembered t' = r.remembered t' := by
  rw [remembered, setSlots, node_insert]
  split
  · rename_i h
    subst h
    rfl
  · rfl

theorem remembered_setSuperTypes :
    (r.setSuperTypes t ss).remembered t' = if t' = t then some ss else r.remembered t' := by
  rw [remembered, setSuperTypes, node_insert]
  split
  · rfl
  · rfl

namespace RecalledBy

theorem refl (r : Registry) : r.RecalledBy r := fun _ _ h => h

theorem trans (h : r.RecalledBy r') (h' : r'.RecalledBy r'') : r.RecalledBy r'' :=
  fun t ss ht => h' t ss (h t ss ht)

theorem leads (h : r.RecalledBy r') (hl : r.Leads t t') : r'.Leads t t' := by
  obtain ⟨ss, ht, hs⟩ := hl
  exact ⟨ss, h t ss ht, hs⟩

/-- With less in memory there are fewer ways to go. -/
theorem noCycle (h : r.RecalledBy r') (hr : NoCycle r'.Leads) : NoCycle r.Leads :=
  hr.mono fun _ _ => h.leads

theorem setSlots (r : Registry) (t : String) (s : List (Option Handle)) :
    r.RecalledBy (r.setSlots t s) := by
  intro t' ss h
  rw [remembered_setSlots, h]

/-- Supertypes that are remembered already are remembered again as they are. -/
theorem setSuperTypes (r : Registry) (p : Platform) (t : String) :
    r.RecalledBy (r.setSuperTypes t (r.superTypes p t)) := by
  intro t' ss h
  rw [remembered_setSuperTypes]
  split
  · rename_i ht
    rw [← ht, superTypes_of_remembered h]
  · exact h

end RecalledBy

/-! ## The trace of a search -/

/-- A search from a type ends with a candidate, or with none: it goes by the candidates of the
single types and by the supertypes given, and needs no others. -/
inductive Ends (own : String → Option Candidate) (supers : String → Option (List String)) :
    String → Option Candidate → Prop
  /-- The type has a candidate of its own. -/
  | own {t : String} {c : Candidate} (here : own t = some c) : Ends own supers t (some c)
  /-- One of its supertypes leads to a candidate, and those before it do not. -/
  | inherited {t s : String} {before after : List String} {c : Candidate} (here : own t = none)
    (known : supers t = some (before ++ s :: after))
    (passed : ∀ b ∈ before, Ends own supers b none) (found : Ends own supers s (some c)) :
    Ends own supers t (some c)
  /-- None of its supertypes does. -/
  | nothing {t : String} {ss : List String} (here : own t = none) (known : supers t = some ss)
    (passed : ∀ s ∈ ss, Ends own supers s none) : Ends own supers t none

/-- The same for a list of types: the first candidate counts. -/
def EndsIn (own : String → Option Candidate) (supers : String → Option (List String))
    (ts : List String) : Option Candidate → Prop
  | none => ∀ t ∈ ts, Ends own supers t none
  | some c => ∃ before s after, ts = before ++ s :: after ∧
      (∀ b ∈ before, Ends own supers b none) ∧ Ends own supers s (some c)

section Trace

variable {own own' : String → Option Candidate} {supers supers' : String → Option (List String)}
  {o : Option Candidate} {c : Candidate}

/-- Without a candidate of its own, a type ends as its supertypes do. -/
theorem EndsIn.ends (h : EndsIn own supers ss o) (here : own t = none)
    (known : supers t = some ss) :
    Ends own supers t o := by
  cases o with
  | none => exact .nothing here known h
  | some c =>
    obtain ⟨before, s, after, rfl, passed, found⟩ := h
    exact .inherited here known passed found

theorem EndsIn.cons_of_none {ts : List String} (ht : Ends own supers t none)
    (h : EndsIn own supers ts o) : EndsIn own supers (t :: ts) o := by
  cases o with
  | none => exact List.forall_mem_cons.2 ⟨ht, h⟩
  | some c =>
    obtain ⟨before, s, after, rfl, passed, found⟩ := h
    exact ⟨t :: before, s, after, rfl, List.forall_mem_cons.2 ⟨ht, passed⟩, found⟩

theorem EndsIn.cons_of_some (ht : Ends own supers t (some c)) (ts : List String) :
    EndsIn own supers (t :: ts) (some c) :=
  ⟨[], t, ts, rfl, List.forall_mem_nil _, ht⟩

/-- **A trace outlasts what does not touch it.** More may be known, types that had no candidate
still have none, and the candidate that the search ends with may have become another one. -/
theorem Ends.mono (h : Ends own supers t o) (f : Candidate → Candidate)
    (hsupers : ∀ t ss, supers t = some ss → supers' t = some ss)
    (hnone : ∀ t, own t = none → own' t = none)
    (hsome : ∀ t c, o = some c → own t = some c → own' t = some (f c)) :
    Ends own' supers' t (o.map f) := by
  induction h with
  | own here => exact .own (hsome _ _ rfl here)
  | inherited here known passed found ihpassed ihfound =>
    refine .inherited (hnone _ here) (hsupers _ _ known) (fun b hb => ?_) (ihfound hsome)
    exact ihpassed b hb fun _ _ h => nomatch h
  | nothing here known passed ihpassed =>
    exact .nothing (hnone _ here) (hsupers _ _ known) fun s hs =>
      ihpassed s hs fun _ _ h => nomatch h

/-- A candidate of the type itself is what a search ends with. -/
theorem Ends.eq_of_own {c' : Candidate} (h : Ends own supers t (some c)) (here : own t = some c') :
    c' = c := by
  cases h with
  | own here' => exact Option.some.inj (here.symm.trans here')
  | inherited here' _ _ _ =>
    rw [here] at here'
    cases here'

/-- What a search ends with is the candidate of some type. -/
theorem Ends.exists_own (h : Ends own supers t o) : ∀ c, o = some c → ∃ s, own s = some c := by
  induction h with
  | own here =>
    rintro c ⟨⟩
    exact ⟨_, here⟩
  | inherited here known passed found ihpassed ihfound => exact ihfound
  | nothing => exact fun _ h => nomatch h

/-- A search ends at a type that the first one leads to. -/
theorem Ends.reaches (h : Ends own supers t o) (hown : ∀ t c, own t = some c → c.typeName = t) :
    ∀ c, o = some c →
      ReflTransGen (fun t super => ∃ ss, supers t = some ss ∧ super ∈ ss) t c.typeName := by
  induction h with
  | own here =>
    rintro c ⟨⟩
    rw [hown _ _ here]
  | inherited here known passed found ihpassed ihfound =>
    intro c hc
    exact .head ⟨_, known, List.mem_append_right _ List.mem_cons_self⟩ (ihfound c hc)
  | nothing => exact fun _ h => nomatch h

end Trace

variable {namespaceName property : String} {o : Option Candidate}

/-- A search from a type ends in a registry with a candidate, or with none, by what is remembered.
-/
def SearchEnds (r : Registry) (namespaceName property : String) :
    String → Option Candidate → Prop :=
  Ends (r.candidateOf namespaceName property) r.remembered

/-- A list of searches that find nothing finds nothing. -/
theorem candidate_flatMap_eq_none {ts : List String} {order : String → List String}
    (h : ∀ t ∈ ts, r.candidate namespaceName property (order t) = none) :
    r.candidate namespaceName property (ts.flatMap order) = none := by
  induction ts with
  | nil => rfl
  | cons t ts ih =>
    obtain ⟨ht, hts⟩ := List.forall_mem_cons.1 h
    rw [List.flatMap_cons, candidate_append, ht, Option.none_or, ih hts]

/-- **Searches follow the trace**, whatever is declared, if they may go deep enough. -/
theorem SearchEnds.candidate_eq (h : r.SearchEnds namespaceName property t o) {rank : String → ℕ}
    (hrank : ∀ t, ∀ super ∈ r.superTypes p t, rank super < rank t) {depth : ℕ}
    (hdepth : rank t < depth) :
    r.candidate namespaceName property (r.searched p depth t) = o := by
  induction h generalizing depth with
  | own here =>
    obtain _ | depth := depth
    · omega
    · rw [searched, candidate_cons, here, Option.some_or]
  | @inherited t s before after c here known passed found ihpassed ihfound =>
    obtain _ | depth := depth
    · omega
    · have hsupers := superTypes_of_remembered known p
      have hbelow : ∀ super ∈ before ++ s :: after, rank super < depth := by
        intro super hsuper
        have hlt := hrank t super (by rw [hsupers]; exact hsuper)
        omega
      have hnone : ∀ b ∈ before,
          r.candidate namespaceName property (r.searched p depth b) = none := fun b hb =>
        ihpassed b hb (hbelow b (List.mem_append_left _ hb))
      have hsome := ihfound (hbelow s (List.mem_append_right _ List.mem_cons_self))
      rw [searched, candidate_cons, here, Option.none_or, hsupers, List.flatMap_append,
        candidate_append, candidate_flatMap_eq_none hnone, Option.none_or, List.flatMap_cons,
        candidate_append, hsome, Option.some_or]
  | @nothing t ss here known passed ihpassed =>
    obtain _ | depth := depth
    · omega
    · have hsupers := superTypes_of_remembered known p
      have hnone : ∀ s ∈ ss, r.candidate namespaceName property (r.searched p depth s) = none := by
        intro s hs
        have hlt := hrank t s (by rw [hsupers]; exact hs)
        exact ihpassed s hs (by omega)
      rw [searched, candidate_cons, here, Option.none_or, hsupers, candidate_flatMap_eq_none hnone]

/-- A search ends at a type that is led to. -/
theorem SearchEnds.reaches {c : Candidate} (h : r.SearchEnds namespaceName property t (some c)) :
    ReflTransGen r.Leads t c.typeName :=
  Ends.reaches h (fun _ _ hc => (candidateOf_eq_some hc).1) c rfl

end Registry

/-! ## Searches leave a trace -/

namespace Engine

open Registry

variable {e e₀ : Engine} {namespaceName property t : String} {force : Bool} {depth : ℕ}
  {supers : String → Option (List String)}

/-- Lookups forget nothing. -/
theorem lasting_recalled (r₀ : Registry) : Lasting fun e => r₀.RecalledBy e.registry where
  record _ _ _ he := he
  objectCount _ _ he := he
  setSlots e t slots he := he.trans (.setSlots e.registry t slots)
  setSuperTypes e t he := he.trans (.setSuperTypes e.registry e.platform t)
  setCache _ _ he := he

/-- With a candidate, a search ends the same way whatever comes behind it. -/
theorem firstFound_cons_of_candidate {find : String → Act (Option Handle)} {c : Candidate}
    {e₁ : Engine} (h : find t e = settle force (some c) e₁) (ts : List String) :
    firstFound find (t :: ts) e = find t e := by
  rw [firstFound, Act.bind_congr h, h]
  refine settle_some_bind force c ?_ e₁
  exact fun _ => rfl

/-- Searches one after another leave a trace if each of them does. -/
theorem firstFound_ends {ts : List String}
    (hfind : ∀ t ∈ ts, ∀ e, Alike e₀ e →
      (∀ t' ss, (findInherited namespaceName property force depth t e).2.registry.remembered t' =
        some ss → supers t' = some ss) →
      Ends (e₀.registry.candidateOf namespaceName property) supers t
        (e₀.registry.candidate namespaceName property
          (e₀.registry.searched e₀.platform depth t)))
    (e : Engine) (he : Alike e₀ e)
    (hsupers : ∀ t' ss,
      (firstFound (findInherited namespaceName property force depth) ts e).2.registry.remembered
        t' = some ss → supers t' = some ss) :
    EndsIn (e₀.registry.candidateOf namespaceName property) supers ts
      (e₀.registry.candidate namespaceName property
        (ts.flatMap (e₀.registry.searched e₀.platform depth))) := by
  induction ts generalizing e with
  | nil => exact List.forall_mem_nil _
  | cons t ts ih =>
    obtain ⟨hfirst, hrest⟩ := List.forall_mem_cons.1 hfind
    obtain ⟨e₁, he₁, h₁⟩ := findInherited_eq namespaceName property force depth e₀ t e he
    rw [List.flatMap_cons, candidate_append]
    cases hc : e₀.registry.candidate namespaceName property
        (e₀.registry.searched e₀.platform depth t) with
    | some c =>
      rw [hc] at h₁
      rw [firstFound_cons_of_candidate h₁] at hsupers
      have hends := hfirst e he hsupers
      rw [hc] at hends
      exact .cons_of_some hends _
    | none =>
      rw [hc] at h₁
      have hrun : firstFound (findInherited namespaceName property force depth) (t :: ts) e =
          firstFound (findInherited namespaceName property force depth) ts e₁ := by
        rw [firstFound, Act.bind_of_ok h₁]
      rw [hrun] at hsupers
      -- what the first search has left is still there after the others
      have hclosed := (lasting_recalled e₁.registry).closed
      have hkept := hclosed.firstFound
        (fun t => hclosed.findInherited namespaceName property force depth t) ts e₁ (.refl _)
      have hends := hfirst e he fun t' ss ht' => by
        rw [h₁] at ht'
        exact hsupers t' ss (hkept t' ss ht')
      rw [hc] at hends
      exact .cons_of_none hends (ih hrest e₁ he₁ hsupers)

/-- **A search leaves the trace that it ends with**, if it may go deep enough. The engine before is
held fixed, as in `findInherited_eq`; the trace goes by whatever knows at least the supertypes that
are remembered in the end. -/
theorem findInherited_ends {rank : String → ℕ}
    (hrank : ∀ t ss, supers t = some ss → ∀ super ∈ ss, rank super < rank t)
    (hdepth : rank t < depth) (e : Engine) (he : Alike e₀ e)
    (hsupers : ∀ t' ss,
      (findInherited namespaceName property force depth t e).2.registry.remembered t' = some ss →
        supers t' = some ss) :
    Ends (e₀.registry.candidateOf namespaceName property) supers t
      (e₀.registry.candidate namespaceName property
        (e₀.registry.searched e₀.platform depth t)) := by
  induction depth generalizing t e with
  | zero => omega
  | succ depth ih =>
    obtain ⟨e₁, he₁, h₁⟩ := findLocal_eq namespaceName property force t e
    have hc : e.registry.candidateOf namespaceName property t =
        e₀.registry.candidateOf namespaceName property t := by
      rw [candidateOf, candidateOf, he.slots]
    rw [hc] at h₁
    rw [Registry.searched, candidate_cons]
    cases hc₀ : e₀.registry.candidateOf namespaceName property t with
    | some c => exact .own hc₀
    | none =>
      rw [hc₀] at h₁
      have he₁' := he.trans he₁
      have hss : e₁.registry.superTypes e₁.platform t = e₀.registry.superTypes e₀.platform t := by
        rw [he₁'.platform, he₁'.superTypes]
      -- nothing in the type itself: its supertypes are remembered and searched
      let e₂ : Engine :=
        { e₁ with registry := e₁.registry.setSuperTypes t (e₁.registry.superTypes e₁.platform t) }
      have hrun : findInherited namespaceName property force (depth + 1) t e =
          firstFound (findInherited namespaceName property force depth)
            (e₀.registry.superTypes e₀.platform t) e₂ := by
        rw [findInherited, Act.bind_of_ok h₁, ← hss]
        rfl
      rw [hrun] at hsupers
      have hclosed := (lasting_recalled e₂.registry).closed
      have hkept := hclosed.firstFound
        (fun t => hclosed.findInherited namespaceName property force depth t)
        (e₀.registry.superTypes e₀.platform t) e₂ (.refl _)
      have hknown : supers t = some (e₀.registry.superTypes e₀.platform t) := by
        refine hsupers t _ (hkept t _ ?_)
        rw [remembered_setSuperTypes, if_pos rfl, hss]
      rw [Option.none_or]
      refine EndsIn.ends (firstFound_ends (fun s hs e he hsupers => ?_) e₂
        (he₁'.trans (alike_setSuperTypes e₁ t)) hsupers) hc₀ hknown
      have hlt := hrank t _ hknown s hs
      exact ih (by omega) e he hsupers

/-! ## A direct search leaves a trace -/

/-- A direct search leaves behind the engine that its search for a handle leaves behind. -/
theorem resolveAnew_snd (receiver : Value) (key : PropertyKey) (force : Bool) (e : Engine) :
    (resolveAnew receiver key force e).2 =
      (find key.namespaceName key.name force (isStatic receiver) key.typeName e).2 := by
  rw [resolveAnew, Act.bind_apply]
  rcases find key.namespaceName key.name force (isStatic receiver) key.typeName e with
    ⟨_ | _ | _, e'⟩ <;> rfl

/-- **A direct search leaves the trace of its candidate**, if what it leaves has no cycles. For a
receiver that is a type the trace is that type. -/
theorem resolveAnew_ends {receiver : Value} {key : PropertyKey} {c : Candidate}
    (hc : e.candidate (isStatic receiver) key = some c)
    (hacyclic : NoCycle (resolveAnew receiver key force e).2.registry.Leads) :
    Ends (e.registry.candidateOf key.namespaceName key.name)
      (resolveAnew receiver key force e).2.registry.remembered key.typeName (some c) := by
  obtain ⟨_, _, hs⟩ := (resolveAnew_direct receiver key force e).advance
  have hsupers := hs.superTypes
  rw [resolveAnew_snd] at hacyclic hsupers ⊢
  cases hstatic : isStatic receiver with
  | true =>
    rw [hstatic, Engine.candidate, searched, if_pos rfl, candidate_cons, Registry.candidate,
      List.findSome?_nil, Option.or_none] at hc
    exact .own hc
  | false =>
    rw [hstatic] at hacyclic hc hsupers
    have hrun : find key.namespaceName key.name force false key.typeName e =
        findInherited key.namespaceName key.name force (e.registry.searchDepth e.platform)
          key.typeName e := rfl
    rw [hrun] at hacyclic hsupers ⊢
    -- what is remembered in the end is what the search went by from the start
    obtain ⟨rank, hdepth, hlt⟩ := exists_rank_lt_searchDepth (r := e.registry) (p := e.platform)
      hacyclic fun t super hleads => by
        rw [Walks, ← hsupers]
        exact hleads.walks e.platform
    have hends := findInherited_ends (fun t ss hss super hsuper => hlt t super ⟨ss, hss, hsuper⟩)
      (hdepth key.typeName) e (.refl e) fun _ _ hss => hss
    rw [Engine.candidate, searched, if_neg Bool.false_ne_true] at hc
    rw [hc] at hends
    exact hends

end Engine

end Enablement
