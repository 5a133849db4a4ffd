import Enablement.Proofs.Platform.Subtypes
import Enablement.Proofs.Registry.Cache
import Enablement.Proofs.Registry.Requests
/-!
# Registry — the first match

Right after the registrations have changed the registry has been flushed
(`Move.registry_of_isRegistryChange`): nothing is remembered, and a search has only the
registrations and the declared types to go by. Over a hierarchy without cycles it comes to the
registrations in a fixed order (`Engine.inOrder`): those of a type before those of its supertypes,
and these one after the other, each with all that it inherits. The first one that answers for the
property is what counts (`Engine.firstMatch`). It may stay dormant, it may be instantiated, and the
host may refuse to make its tester; nothing behind it is looked at in any of these cases.
-/

namespace Enablement

open Relation

/-! ## Lineages -/

namespace Platform

variable {p : Platform} {t super : String}

/-- A rank that goes down from the declared types to their supertypes rules cycles out. -/
theorem acyclic_of_rank (rank : String → ℕ)
    (h : ∀ t ∈ p.types.names, ∀ super ∈ p.superTypes t, rank super < rank t) : p.Acyclic :=
  noCycle_of_rank rank fun t super hs => h t (mem_names_of_inherits hs) super hs

/-- A lineage holds types that its first one leads to. -/
theorem reach_of_mem_lineageTo {depth : ℕ} (h : super ∈ p.lineageTo depth t) :
    ReflTransGen p.Inherits t super := by
  induction depth generalizing t with
  | zero => cases h
  | succ depth ih =>
    rw [lineageTo, List.mem_cons, List.mem_flatMap] at h
    rcases h with rfl | ⟨s, hs, hmem⟩
    · exact .refl
    · exact .head hs (ih hmem)

/-- Without cycles it holds all of them. -/
theorem Acyclic.mem_lineage_of_reach (hp : p.Acyclic) (h : ReflTransGen p.Inherits t super) :
    super ∈ p.lineage t := by
  induction h using ReflTransGen.head_induction_on with
  | refl =>
    rw [hp.lineage_eq]
    exact List.mem_cons_self
  | head hstep _ ih =>
    rw [hp.lineage_eq]
    exact List.mem_cons_of_mem _ (List.mem_flatMap.2 ⟨_, hstep, ih⟩)

/-- **So the search of a lineage and the test for subtypes come to the same types.** -/
theorem Acyclic.mem_lineage_iff (hp : p.Acyclic) :
    super ∈ p.lineage t ↔ p.isSubtype t super = true := by
  rw [isSubtype_iff]
  exact ⟨reach_of_mem_lineageTo, hp.mem_lineage_of_reach⟩

end Platform

/-! ## Registrations in order -/

/-- A registration: the type that it is for, its place there, and what it declares. -/
structure Registration where
  typeName : String
  place : ℕ
  descriptor : Descriptor

namespace Registration

/-- The dormant tester of a registration. -/
def handle (x : Registration) : Handle := { descriptor := x.descriptor }

/-- Whether a search has the host make the tester: it is forced, or the contributor is active. -/
def isWanted (x : Registration) (p : Platform) (force : Bool) : Bool :=
  force || p.isActive x.descriptor.contributor

/-- What becomes of a registration that a search comes to: it stays dormant, or the host makes the
tester, or it refuses. -/
def take (x : Registration) (p : Platform) (force : Bool) : Except Fault Handle :=
  if x.isWanted p force then p.make x.handle else .ok x.handle

/-- The registrations that the host is asked for the objects of on the way. -/
def asked (x : Registration) (p : Platform) (force : Bool) : List (String × ℕ) :=
  if x.isWanted p force then [(x.typeName, x.place)] else []

/-- The registration as a slot that answers. -/
def candidate (x : Registration) : Registry.Candidate := ⟨x.typeName, x.place, x.handle⟩

end Registration

/-- The registrations for a type, in order. -/
def Registry.enrolled (r : Registry) (t : String) : List Registration :=
  (r.registrations t).zipIdx.map fun d => ⟨t, d.2, d.1⟩

namespace Engine

open Registry

/-- The registrations that count for a type, in the order of its lineage; for a receiver that is a
type, its own only. -/
def inOrder (e : Engine) (static : Bool) (t : String) : List Registration :=
  (if static then [t] else e.platform.lineage t).flatMap e.registry.enrolled

/-- The first of them that answers for a property. -/
def firstMatch (e : Engine) (static : Bool) (key : PropertyKey) : Option Registration :=
  (e.inOrder static key.typeName).find? fun x => x.descriptor.handles key.namespaceName key.name

end Engine

/-! ## After a flush -/

namespace Registry

variable {r : Registry} {namespaceName property t : String}

/-- They are what is registered, with types and places. -/
@[simp] theorem map_descriptor_enrolled (r : Registry) (t : String) :
    (r.enrolled t).map (·.descriptor) = r.registrations t := by
  rw [enrolled, List.map_map]
  exact List.zipIdx_map_fst 0 _

/-- In slots that hold declarations only, the first one to answer is the first declaration that
does. The places are counted from anywhere, for the induction. -/
theorem firstHandling_declared (namespaceName property t : String) (ds : List Descriptor) (n : ℕ) :
    ((firstHandling namespaceName property (ds.map fun d => some { descriptor := d })).map
        fun f => (⟨t, f.1 + n, f.2⟩ : Candidate)) =
      (((ds.zipIdx n).map fun d => (⟨t, d.2, d.1⟩ : Registration)).find?
        fun x => x.descriptor.handles namespaceName property).map Registration.candidate := by
  induction ds generalizing n with
  | nil => rfl
  | cons d ds ih =>
    rw [List.map_cons, List.zipIdx_cons, List.map_cons]
    cases hd : d.handles namespaceName property with
    | true =>
      have hhandle : ({ descriptor := d } : Handle).handles namespaceName property = true := hd
      rw [firstHandling_cons_of_handles hhandle]
      simp only [List.find?_cons, hd, Option.map_some, Nat.zero_add]
      rfl
    | false =>
      have hnot : ∀ h : Handle, some { descriptor := d } = some h →
          h.handles namespaceName property = false := fun h hh => Option.some.inj hh ▸ hd
      rw [firstHandling_cons_of_not hnot]
      simp only [List.find?_cons, hd]
      rw [← ih (n + 1), Option.map_map]
      refine congrArg (Option.map · _) (funext fun f => ?_)
      rw [Function.comp_apply, Nat.add_assoc, Nat.add_comm 1 n]

end Registry

namespace Engine

open Registry

variable {e e₁ : Engine} {r : Registry} {receiver : Value} {key : PropertyKey}
  {force static : Bool}

/-- Over slots that have been forgotten, a search of some types comes to the first registration for
them that answers. -/
theorem candidate_enrolled (hr : e.registry = r.flush) (namespaceName property : String)
    (ts : List String) :
    e.registry.candidate namespaceName property ts =
      ((ts.flatMap e.registry.enrolled).find? fun x =>
        x.descriptor.handles namespaceName property).map Registration.candidate := by
  have hof : e.registry.candidateOf namespaceName property = fun t =>
      ((e.registry.enrolled t).find? fun x =>
        x.descriptor.handles namespaceName property).map Registration.candidate := by
    funext t
    have hslots : e.registry.slots t =
        (e.registry.registrations t).map fun d => some { descriptor := d } := by
      rw [hr]
      rfl
    rw [candidateOf, hslots]
    exact firstHandling_declared namespaceName property t _ 0
  rw [Registry.candidate, hof, List.find?_flatMap, List.map_findSome?]
  rfl

/-- **A search comes to the first match.** -/
theorem candidate_eq_firstMatch (hr : e.registry = r.flush) (hp : e.platform.Acyclic)
    (static : Bool) (key : PropertyKey) :
    e.candidate static key = (e.firstMatch static key).map Registration.candidate := by
  have hsearched : e.searched static key.typeName =
      if static then [key.typeName] else e.platform.lineage key.typeName := by
    rw [searched]
    split
    · rfl
    · refine searched_eq_lineage hp (fun t => ?_) _
      rw [hr]
      rfl
  rw [Engine.candidate, hsearched, candidate_enrolled hr]
  rfl

/-- There is no match exactly if none of the types that count has a tester for the property. -/
theorem firstMatch_eq_none_iff (hp : e.platform.Acyclic) :
    e.firstMatch static key = none ↔
      ∀ s, (if static then s = key.typeName else e.platform.isSubtype key.typeName s = true) →
        ∀ d ∈ e.registry.registrations s, d.handles key.namespaceName key.name = false := by
  have hcounts : ∀ s, s ∈ (if static then [key.typeName] else e.platform.lineage key.typeName) ↔
      if static then s = key.typeName else e.platform.isSubtype key.typeName s = true := by
    intro s
    split
    · exact List.mem_singleton
    · exact hp.mem_lineage_iff
  simp only [firstMatch, inOrder, List.find?_eq_none, List.mem_flatMap, hcounts,
    Bool.not_eq_true, ← map_descriptor_enrolled, List.mem_map]
  constructor
  · rintro h s hs d ⟨x, hx, rfl⟩
    exact h x ⟨s, hs, hx⟩
  · rintro h x ⟨s, hs, hx⟩
    exact h s hs _ ⟨x, hx, rfl⟩

/-! ## What is made of it -/

/-- A match stays as it is, or the host is asked for it, and for nothing else. The engine is the one
before the search up to what has been remembered. -/
theorem settle_registration (x : Registration) (force : Bool) (he : Alike e e₁) :
    (settle force (some x.candidate) e₁).1 = (x.take e.platform force).map some ∧
      ∃ events, (settle force (some x.candidate) e₁).2.journal = e.journal ++ events ∧
        requests events = x.asked e.platform force := by
  rw [Registration.take, Registration.asked]
  by_cases hwanted : x.isWanted e.platform force = true
  · have hw : force = true ∨ x.candidate.handle.isActive e₁.platform = true := by
      rw [he.platform]
      exact Bool.or_eq_true_iff.1 hwanted
    obtain ⟨e₂, hrun, -⟩ := instantiateSlot_eq (c := x.candidate) rfl e₁
    obtain ⟨made, notes, hj, hmade⟩ :=
      instantiateSlot_journal x.candidate.typeName x.candidate.place (h := x.candidate.handle) rfl
        e₁
    have hsettle := settle_of_wanted (d := x.candidate) rfl hw
    have hmake : e₁.platform.make x.candidate.handle = e.platform.make x.handle := by
      rw [he.platform]
      rfl
    rw [if_pos hwanted, if_pos hwanted, hsettle, Act.bind_apply, hrun, hmake]
    rw [hrun, he.journal] at hj
    refine ⟨?_, _, ?_, requests_object notes hmade⟩
    · cases e.platform.make x.handle <;> rfl
    · cases e.platform.make x.handle <;> exact hj
  · have has : x.candidate.handle.isInstantiated = true ∨
        force = false ∧ x.candidate.handle.isActive e₁.platform = false := by
      rw [he.platform]
      exact .inr (Bool.or_eq_false_iff.1 (Bool.eq_false_iff.2 hwanted))
    rw [if_neg hwanted, if_neg hwanted, settle_of_asIs has]
    exact ⟨rfl, [], by rw [he.journal, List.append_nil], rfl⟩

/-- The answer of a search, by its first match. -/
def matchAnswer (e : Engine) (static : Bool) (key : PropertyKey) (force : Bool) :
    Except Fault (Option Handle) :=
  match e.firstMatch static key with
  | none => .ok none
  | some x => (x.take e.platform force).map some

/-- The answer of a lookup, by the same match. -/
def lookupAnswer (e : Engine) (static : Bool) (key : PropertyKey) (force : Bool) :
    Except Fault Resolved :=
  match e.firstMatch static key with
  | none => .error (.unknownProperty key.namespaceName key.name key.typeName)
  | some x => (x.take e.platform force).map fun h => ⟨key, h⟩

/-- What the host is asked for on behalf of the match. -/
def asked (e : Engine) (static : Bool) (key : PropertyKey) (force : Bool) : List (String × ℕ) :=
  ((e.firstMatch static key).map fun x => x.asked e.platform force).getD []

/-- **A search takes the first match**, and asks the host for nothing else. -/
theorem find_firstMatch (hr : e.registry = r.flush) (hp : e.platform.Acyclic) (key : PropertyKey)
    (force static : Bool) :
    (find key.namespaceName key.name force static key.typeName e).1 =
        e.matchAnswer static key force ∧
      ∃ events, (find key.namespaceName key.name force static key.typeName e).2.journal =
          e.journal ++ events ∧ requests events = e.asked static key force := by
  obtain ⟨e₁, he, hrun⟩ := find_eq key force static e
  rw [hrun, candidate_eq_firstMatch hr hp, matchAnswer, asked]
  cases e.firstMatch static key with
  | none => exact ⟨rfl, [], by rw [List.append_nil]; exact he.journal, rfl⟩
  | some x => exact settle_registration x force he

/-- With an empty cache there is nothing to drop from it. -/
theorem dropping_of_flush (hr : e.registry = r.flush) (key : PropertyKey) (journal : List Event) :
    e.dropping key journal = { e with journal } := by
  rw [dropping, hr]
  rfl

/-- **A lookup takes the first match as well**, and says that the property is unknown if there is
none. -/
theorem resolve_firstMatch (hr : e.registry = r.flush) (hp : e.platform.Acyclic)
    (hkey : receiver.typeName = key.typeName) (force : Bool) :
    (resolve receiver key.namespaceName key.name force e).1 =
        e.lookupAnswer (isStatic receiver) key force ∧
      ∃ events, (resolve receiver key.namespaceName key.name force e).2.journal =
          e.journal ++ events ∧ requests events = e.asked (isStatic receiver) key force := by
  have hcache : ∀ x, e.registry.cache.find? key = some x → x.isValid e.platform force = false := by
    intro x hx
    rw [hr] at hx
    cases hx
  constructor
  · obtain ⟨hanswer, -⟩ := find_firstMatch hr hp key force (isStatic receiver)
    rw [resolve_fst_of_invalid hkey hcache, resolveAnew, Act.bind_apply]
    rcases hrun : find key.namespaceName key.name force (isStatic receiver) key.typeName e with
      ⟨answer, e'⟩
    rw [hrun] at hanswer
    dsimp only at hanswer
    rw [hanswer, matchAnswer, lookupAnswer]
    cases e.firstMatch (isStatic receiver) key with
    | none => rfl
    | some x =>
      dsimp only
      cases x.take e.platform force <;> rfl
  · obtain ⟨notes, hrun⟩ := resolve_of_invalid hkey hcache
    rw [dropping_of_flush hr] at hrun
    obtain ⟨-, events, hj, hasked⟩ := find_firstMatch
      (e := { e with journal := e.journal ++ .lookedUp key force :: notes.map .noted }) hr hp key
      force (isStatic receiver)
    obtain ⟨hjournal, -⟩ := resolveAndCache_snd receiver key force
      { e with journal := e.journal ++ .lookedUp key force :: notes.map .noted }
    rw [hrun, hjournal, resolveAnew_snd, hj]
    -- what is recorded before the search asks for nothing
    refine ⟨.lookedUp key force :: (notes.map .noted ++ events), ?_, ?_⟩
    · rw [List.append_assoc, List.cons_append]
    · rw [requests_cons_lookedUp, requests_append, requests_notes, List.nil_append, hasked]
      rfl

/-- What the host refuses is not the property. -/
theorem take_ne_unknownProperty (x : Registration) (p : Platform) (force : Bool)
    (namespaceName property t : String) :
    x.take p force ≠ .error (.unknownProperty namespaceName property t) := by
  intro h
  rw [Registration.take, Platform.make] at h
  split at h
  · split at h <;> cases h
  · cases h

/-- So a lookup reports an unknown property only if there is no match, and then the one asked
for. -/
theorem lookupAnswer_unknown_iff {unknown : PropertyKey} :
    e.lookupAnswer static key force =
        .error (.unknownProperty unknown.namespaceName unknown.name unknown.typeName) ↔
      unknown = key ∧ e.firstMatch static key = none := by
  rw [lookupAnswer]
  cases e.firstMatch static key with
  | none =>
    constructor
    · intro h
      obtain ⟨hnamespace, hname, htype⟩ := Fault.unknownProperty.inj (Except.error.inj h)
      obtain ⟨t, n, p⟩ := unknown
      subst hnamespace hname htype
      exact ⟨rfl, rfl⟩
    · rintro ⟨rfl, -⟩
      rfl
  | some x =>
    refine ⟨fun h => ?_, fun h => nomatch h.2⟩
    have hne := take_ne_unknownProperty x e.platform force unknown.namespaceName unknown.name
      unknown.typeName
    dsimp only at h
    cases htake : x.take e.platform force with
    | ok live =>
      rw [htake] at h
      cases h
    | error f =>
      rw [htake] at h hne
      exact absurd (congrArg Except.error (Except.error.inj h)) hne

/-- **Right after the registrations have changed, the first match in the order of the hierarchy is
what counts.** Over a hierarchy without cycles, however its types share supertypes, repeat them or
leave them undeclared, the order has a type before its supertypes, these one after the other as they
are declared, and the registrations for a type as they were made; for a receiver that is a type,
only its own. Searches and lookups take the first registration that answers for the property: it
stays dormant, or the host is asked for its tester, and what the host says is the answer, be it a
refusal. The host is asked for nothing else. The property is unknown exactly if nothing that is
registered for a type of which the receiver's type is a subtype answers for it. -/
theorem firstMatch_decides (hr : e.registry = r.flush) (hp : e.platform.Acyclic) :
    (∀ t, e.platform.lineage t = t :: (e.platform.superTypes t).flatMap e.platform.lineage) ∧
    (∀ key force static,
      (find key.namespaceName key.name force static key.typeName e).1 =
          e.matchAnswer static key force ∧
        ∃ events, (find key.namespaceName key.name force static key.typeName e).2.journal =
            e.journal ++ events ∧ requests events = e.asked static key force) ∧
    ∀ receiver namespaceName property force,
      ((resolve receiver namespaceName property force e).1 =
          e.lookupAnswer (isStatic receiver) ⟨receiver.typeName, namespaceName, property⟩ force ∧
        ∃ events, (resolve receiver namespaceName property force e).2.journal =
            e.journal ++ events ∧ requests events =
              e.asked (isStatic receiver) ⟨receiver.typeName, namespaceName, property⟩ force) ∧
      ∀ unknown : PropertyKey, (resolve receiver namespaceName property force e).1 =
          .error (.unknownProperty unknown.namespaceName unknown.name unknown.typeName) ↔
        unknown = ⟨receiver.typeName, namespaceName, property⟩ ∧
        ∀ s, (if isStatic receiver then s = receiver.typeName
            else e.platform.isSubtype receiver.typeName s = true) →
          ∀ d ∈ e.registry.registrations s, d.handles namespaceName property = false := by
  refine ⟨hp.lineage_eq, find_firstMatch hr hp, fun receiver namespaceName property force => ?_⟩
  let key : PropertyKey := ⟨receiver.typeName, namespaceName, property⟩
  have hkey : receiver.typeName = key.typeName := rfl
  have hresolve := resolve_firstMatch hr hp hkey force
  refine ⟨hresolve, fun unknown => ?_⟩
  rw [hresolve.1, lookupAnswer_unknown_iff, firstMatch_eq_none_iff hp]

/-- A type with two supertypes, one of them declared twice, that share a supertype and lead to a
type that is not declared. -/
def figures : Platform :=
  { types := .ofList [("Circle", ["Shape", "Round", "Shape"]), ("Shape", ["Object"]),
      ("Round", ["Object", "Ghost"])]
    classes := .ofList [("TrueTester", .tester fun _ _ _ _ => true)] }

theorem figures_acyclic : figures.Acyclic := by
  refine figures.acyclic_of_rank (fun t => if t = "Circle" then 2 else
    if t = "Shape" ∨ t = "Round" then 1 else 0) ?_
  decide

/-- The testers are for the shared supertype and for the second one of the two; and the first one of
the two has a tester that the host cannot make. -/
def figuresEngine : Engine :=
  addTesters [.ofFields "round" "Round" "ns" "p" "TrueTester" "c",
      .ofFields "shape" "Shape" "ns" "q" "Missing" "c",
      .ofFields "object" "Object" "ns" "p,q" "TrueTester" "c"]
    { platform := figures, handlers := [] }

/-- The shared supertype comes before the second one of the two. A refusal is the answer, though a
tester for the shared supertype could have been made. The type itself has no testers. -/
theorem firstMatch_decides_figures :
    (∃ r : Registry, figuresEngine.registry = r.flush) ∧ figuresEngine.platform.Acyclic ∧
      (find "ns" "p" false false "Circle" figuresEngine).1 =
        .ok (some { descriptor := .ofFields "object" "Object" "ns" "p,q" "TrueTester" "c" }) ∧
      (resolve (.host ⟨"Circle", "1"⟩) "ns" "q" true figuresEngine).1 =
        .error (.classNotFound "Missing" "c") ∧
      (resolve (.type "Circle") "ns" "p" false figuresEngine).1 =
        .error (.unknownProperty "ns" "p" "Circle") := by
  have hr : figuresEngine.registry =
      (Registry.flush { figuresEngine.registry with nodes := {} }) := rfl
  obtain ⟨-, hfind, hresolve⟩ := firstMatch_decides hr figures_acyclic
  obtain ⟨hdormant, -⟩ := hfind ⟨"Circle", "ns", "p"⟩ false false
  obtain ⟨⟨hrefused, -⟩, -⟩ := hresolve (.host ⟨"Circle", "1"⟩) "ns" "q" true
  obtain ⟨-, hunknown⟩ := hresolve (.type "Circle") "ns" "p" false
  refine ⟨⟨_, hr⟩, figures_acyclic, hdormant.trans rfl, hrefused.trans rfl,
    (hunknown ⟨"Circle", "ns", "p"⟩).2 ⟨rfl, fun s hs d hd => ?_⟩⟩
  obtain rfl : s = "Circle" := hs
  cases hd

end Engine

end Enablement
