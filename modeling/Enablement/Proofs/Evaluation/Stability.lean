import Enablement.Proofs.Evaluation.Evolution
/-!
# Evaluation — settled outcomes stay

The questions of an expression go by the platform, by definitions and by testers, and each of them
evolves: what they have answered with is answered again, and only what was open can be settled. So
whole expressions evolve, by induction over the children, and references do at whatever depth they
are followed. An expression that has evaluated to true or false evaluates to the same later, as long
as nothing is registered or removed, unless it fails (`evaluate_stable`).
-/

namespace Enablement

open Engine

/-! ## What is read off a platform -/

namespace Platform

variable {p p' : Platform} {v : Value} {target : String}

theorem hasAdapter_congr (h : p'.adapter? v target = p.adapter? v target) :
    p'.hasAdapter v target = p.hasAdapter v target := by
  rw [hasAdapter, hasAdapter, h]

theorem adapt?_congr (h : p'.adapter? v target = p.adapter? v target) :
    p'.adapt? v target = p.adapt? v target := by
  rw [adapt?, adapt?, h]

theorem adapterStatus_congr (h : p'.adapter? v target = p.adapter? v target) :
    p'.adapterStatus v target = p.adapterStatus v target := by
  rw [adapterStatus, adapterStatus, h]

theorem adapt?_of_declared (h : p.adapter? v target = some .declared) :
    p.adapt? v target = none := by
  rw [adapt?, h]

theorem adapterStatus_of_declared (h : p.adapter? v target = some .declared) :
    p.adapterStatus v target = .notLoaded := by
  rw [adapterStatus, h]

variable {α : Type} {read? : Value → Option α}

/-- The size or the elements of a value stay, if they could be told. -/
theorem Onward.collection (h : p.Onward p') {a b : Option α}
    (ha : Meaning.collection p v target read? = .ok a)
    (hb : Meaning.collection p' v target read? = .ok b) : a = none ∨ a = b := by
  rw [Meaning.collection] at ha hb
  cases hread : read? v with
  | some c =>
    rw [hread] at ha hb
    exact .inr (Except.ok.inj (ha.symm.trans hb))
  | none =>
    rw [hread] at ha hb
    dsimp only at ha hb
    rw [Meaning.adaptCollection] at ha hb
    rcases h.adapters v target with heq | ⟨hdeclared, -⟩
    · rw [adapt?_congr heq, adapterStatus_congr heq] at hb
      exact .inr (Except.ok.inj (ha.symm.trans hb))
    · rw [adapt?_of_declared hdeclared, adapterStatus_of_declared hdeclared] at ha
      exact .inl (Except.ok.inj ha).symm

end Platform

/-! ## Single acts -/

namespace Act.Evolves

variable {α β : Type} {ρ : α → β → Prop}

/-- What is read off the engine. -/
theorem read {f : Engine → α} {g : Engine → β} (h : ∀ {e e'}, e.Later e' → ρ (f e) (g e')) :
    Evolves ρ (Act.read f) (Act.read g) where
  first _ := .read f
  second _ := .read g
  becomes _ _ hlater ha hb := by
    cases ha
    cases hb
    exact h hlater

/-- An event is recorded both times. -/
theorem record {ev : Event} (hev : ev.isRemark = true) :
    Evolves (fun _ _ => True) (Act.change (·.record ev)) (Act.change (·.record ev)) where
  first e₀ := .change fun e he => (steady_since e₀).record e ev hev he
  second e₀ := .change fun e he => (steady_since e₀).record e ev hev he
  becomes _ _ _ _ _ := trivial

theorem ite {c : Prop} [Decidable c] {x x' : Act α} {y y' : Act β} (h : Evolves ρ x y)
    (h' : Evolves ρ x' y') : Evolves ρ (if c then x else x') (if c then y else y') := by
  split
  · exact h
  · exact h'

/-- **A lookup that has found an instantiated tester finds it again.** -/
theorem resolve (receiver : Value) (namespaceName property : String) (force : Bool) :
    Evolves (fun x y => x.handle.isInstantiated = true → y = x)
      (Engine.resolve receiver namespaceName property force)
      (Engine.resolve receiver namespaceName property force) where
  first e₀ := (steady_since e₀).resolve receiver namespaceName property force
  second e₀ := (steady_since e₀).resolve receiver namespaceName property force
  becomes {e e' x y} he he' hlater hx hy hlive := by
    have hafter := (steady_since e).resolve receiver namespaceName property force e he.since
    have hanswers := resolve_answers he.sound receiver namespaceName property force
    rw [hx] at hanswers
    have hkeyed := (hanswers.entry x rfl).keyed
    have hpinned := hlater.pinned _ _ (hanswers.pinned hafter.orderly hlive)
    obtain ⟨key, h⟩ := x
    cases hkeyed
    -- it is pinned by the first lookup, so the second one has it or fails
    rcases he'.resolve_pinned hpinned rfl force with hy' | ⟨f, hy'⟩
    · exact Except.ok.inj (hy.symm.trans hy')
    · exact nomatch hy.symm.trans hy'

/-- The same question to the same tester has the same answer. -/
theorem ask (r : Resolved) (receiver : Value) (args : List Value) (expected : Option Value) :
    Evolves Eq (Engine.ask r receiver args expected) (Engine.ask r receiver args expected) := by
  rw [Engine.ask]
  cases r.handle.object with
  | none => exact .fail_left _ fun _ => .fail _
  | some o => exact (record rfl).bind (fun _ => trivial) fun _ _ _ => .pure rfl

/-- Names stay defined as they are. -/
theorem definition (id : String) : Evolves Eq (Engine.definition id) (Engine.definition id) where
  first e₀ := (steady_since e₀).definition id
  second e₀ := (steady_since e₀).definition id
  becomes {e e' x y} he he' hlater hx hy := by
    have hafter := (steady_since e).definition id e he.since
    have hsame := hafter.later.trans hlater
    rw [definition_fst] at hx hy
    rw [hsame.definitions.defined, hx] at hy
    exact Except.ok.inj hy

end Act.Evolves

/-! ## Meanings -/

namespace Meaning

/-- How a question about another type ends where the default variable is not of that type. -/
def adaptBy (p : Platform) (v : Value) (target : String) (body : Meaning) : Meaning := fun ctx =>
  if !p.hasAdapter v target then pure .no
  else
    match p.adapt? v target with
    | some w => body (.rebound w :: ctx)
    | none => pure (if p.adapterStatus v target = .notLoaded then .notLoaded else .no)

variable {p : Platform} {v : Value} {target : String} {body : Meaning} {ctx : Context}

theorem adapt_eq (target : String) (body : Meaning) (ctx : Context) :
    Meaning.adapt target body ctx = Act.read (·.platform) >>= fun p =>
      if p.isInstance (Context.defaultVariable ctx) target then
        body (.rebound (Context.defaultVariable ctx) :: ctx)
      else adaptBy p (Context.defaultVariable ctx) target body ctx := rfl

theorem adaptBy_of_declared (h : p.adapter? v target = some .declared) :
    adaptBy p v target body ctx = pure .notLoaded := by
  rw [adaptBy, Platform.hasAdapter, Platform.adapt?_of_declared h,
    Platform.adapterStatus_of_declared h, h]
  rfl

theorem Keeps.adaptBy {P : Engine → Prop} (h : body.Keeps P) (p : Platform) (v : Value)
    (target : String) : Keeps P (.adaptBy p v target body) := by
  intro ctx
  refine .ite (.pure _) ?_
  split
  · exact h _
  · exact .pure _

end Meaning

/-- One meaning evolves into another one in every context. -/
def Meaning.Evolves (m m' : Meaning) : Prop :=
  ∀ ctx, Act.Evolves Truth.MayBecome (m ctx) (m' ctx)

namespace Meaning.Evolves

variable {m m' : Meaning} {ms ms' : List Meaning}

theorem first (h : Evolves m m') (e₀ : Engine) : m.Keeps (Since e₀) := fun ctx => (h ctx).first e₀

theorem second (h : Evolves m m') (e₀ : Engine) : m'.Keeps (Since e₀) :=
  fun ctx => (h ctx).second e₀

theorem all (h : List.Forall₂ Evolves ms ms') : Evolves (.all ms) (.all ms') := by
  intro ctx
  have hacts := h.imp fun _ _ h => h ctx
  rw [Meaning.all, Meaning.all, Act.allOf_eq_joinUntil, Act.allOf_eq_joinUntil]
  exact .joinUntil (List.forall₂_map_left_iff.2 (List.forall₂_map_right_iff.2 hacts)) (.refl _)

theorem any (h : List.Forall₂ Evolves ms ms') : Evolves (.any ms) (.any ms') := by
  intro ctx
  have hacts := h.imp fun _ _ h => h ctx
  have hempty : ms.isEmpty = ms'.isEmpty := by cases h <;> rfl
  rw [Meaning.any, Meaning.any, hempty, Act.anyOf_eq_joinUntil, Act.anyOf_eq_joinUntil]
  refine .ite (.pure (.refl _)) (.joinUntil ?_ (.refl _))
  exact List.forall₂_map_left_iff.2 (List.forall₂_map_right_iff.2 hacts)

theorem not (h : Evolves m m') :
    Evolves (fun ctx => do return (← m ctx).not) (fun ctx => do return (← m' ctx).not) :=
  fun ctx => (h ctx).bind .refl fun _ _ hab => .pure hab.not

/-- The log line says what the outcome is, and does not change it. -/
theorem enablement (h : Evolves m m') : Evolves (.enablement m) (.enablement m') := by
  intro ctx
  have hnote : ∀ e₀ e n, Since e₀ e → Since e₀ (e.note n) := fun e₀ e n =>
    (steady_since e₀).record e (.noted n) rfl
  refine ⟨fun e₀ => .enablement (hnote e₀) (h.first e₀ ctx),
    fun e₀ => .enablement (hnote e₀) (h.second e₀ ctx),
    fun {e e' a b} he he' hlater ha hb => ?_⟩
  have hafter := (h ctx).first e e he.since
  refine (h ctx).becomes he he' ?_ ha hb
  rw [Meaning.enablement] at hlater
  dsimp only at hlater
  split at hlater
  · have hnoted := hnote _ _ (.evaluated (m ctx e).1) hafter.orderly.since
    exact hnoted.later.trans hlater
  · exact hlater

/-! ## The questions -/

theorem withVariable (h : Evolves m m') (name : String) :
    Evolves (.withVariable name m) (.withVariable name m') := by
  intro ctx
  rw [Meaning.withVariable, Meaning.withVariable]
  cases Context.binding? name ctx with
  | none => exact .fail_left _ fun _ => .fail _
  | some v => exact .ite (.pure (.refl _)) (h _)

theorem resolve (h : Evolves m m') (name : String) (args : List Value) :
    Evolves (.resolve name args m) (.resolve name args m') := by
  intro ctx
  rw [Meaning.resolve, Meaning.resolve]
  rcases Context.resolve name args ctx with f | _ | v
  · exact .fail_left _ fun _ => .fail _
  · exact .fail_left _ fun _ => .fail _
  · exact h _

/-- **A value that has to be adapted.** An adapter that is only declared leaves the outcome open. -/
theorem adaptBy (h : Evolves m m') {p p' : Platform} (hp : p.Onward p') (v : Value)
    (target : String) : Evolves (.adaptBy p v target m) (.adaptBy p' v target m') := by
  intro ctx
  rcases hp.adapters v target with heq | ⟨hdeclared, -⟩
  · rw [Meaning.adaptBy, Meaning.adaptBy, Platform.hasAdapter_congr heq, Platform.adapt?_congr heq,
      Platform.adapterStatus_congr heq]
    refine .ite (.pure (.refl _)) ?_
    cases p.adapt? v target with
    | some w => exact h _
    | none => exact .pure (.refl _)
  · rw [Meaning.adaptBy_of_declared hdeclared]
    exact .notLoaded fun e₀ => Keeps.adaptBy (h.second e₀) p' v target ctx

theorem adapt (h : Evolves m m') (target : String) :
    Evolves (.adapt target m) (.adapt target m') := by
  intro ctx
  rw [Meaning.adapt_eq, Meaning.adapt_eq]
  refine Act.Evolves.bind .platform .refl fun p p' hp => ?_
  rw [Platform.isInstance_congr hp.types]
  exact .ite (h _) (h.adaptBy hp _ target ctx)

theorem count (mode : CountMode) : Evolves (.count mode) (.count mode) := by
  intro ctx
  refine Act.Evolves.bind .platform .refl fun p p' hp => ?_
  refine .bind_open (.ofExcept fun _ _ => hp.collection) ?_ fun n => ?_
  · rintro n n' (rfl | rfl)
    · exact .inl rfl
    · exact .inr rfl
  · cases n with
    | none => exact .pure (.refl _)
    | some n => exact .pure (.refl _)

/-! ## The elements of a value -/

/-- One element after another is an act for each of them. -/
theorem steps (h : Evolves m m') (o : Connective) (ctx : Context) (t : Truth) (vs : List Value) :
    Act.Evolves Truth.MayBecome (Meaning.steps o m ctx t vs) (Meaning.steps o m' ctx t vs) := by
  rw [Meaning.steps_eq_joinUntil, Meaning.steps_eq_joinUntil]
  exact .joinUntil (Meaning.forall₂_stepActs (fun _ _ => h _) vs) (.refl t)

theorem iterate (h : Evolves m m') (o : Connective) (ifEmpty : Option Bool) :
    Evolves (.iterate o ifEmpty m) (.iterate o ifEmpty m') := by
  intro ctx
  refine Act.Evolves.bind .platform .refl fun p p' hp => ?_
  refine .bind_open (.ofExcept fun _ _ => hp.collection) ?_ fun vs => ?_
  · rintro vs vs' (rfl | rfl)
    · exact .inl rfl
    · exact .inr rfl
  · -- the elements are asked about one after another, if there are several
    rcases vs with _ | _ | ⟨v, _ | ⟨w, rest⟩⟩
    · exact .pure (.refl _)
    · exact .pure (.refl _)
    · exact h _
    · exact h.steps o ctx _ _

/-! ## Questions to the host -/

/-- System properties stay as they are. -/
theorem property (name : String) :
    Act.Evolves Eq (Act.read (·.platform.property? name))
      (Act.read (·.platform.property? name)) := by
  refine .read fun {e e'} hlater => ?_
  rw [Platform.property?, Platform.property?, hlater.platform.properties]

theorem systemTest (property value : String) :
    Evolves (.systemTest property value) (.systemTest property value) := by
  intro ctx
  refine (Evolves.property property).bind_open (fun _ _ => .inr) fun v => ?_
  cases v with
  | some actual => exact .pure (.refl _)
  | none => exact .pure (.refl _)

theorem platformTest (q : PropertyTest) :
    Act.Evolves Truth.MayBecome (Meaning.platformTest q) (Meaning.platformTest q) := by
  refine (Evolves.property q.property).bind_open (fun _ _ => .inr) fun v => ?_
  split
  · exact .pure (.refl _)
  · exact .pure (.refl _)

/-- **A question to a tester.** It is open as long as the tester is not instantiated, and then the
same tester is asked each time. -/
theorem test (q : PropertyTest) : Evolves (.test q) (.test q) := by
  intro ctx
  refine .ite (platformTest q) ?_
  refine (Act.Evolves.resolve _ _ _ _).bind_open (fun x y hxy => ?_) fun x => .ite ?_ ?_
  · by_cases hlive : x.handle.isInstantiated = true
    · exact .inr (hxy hlive).symm
    · exact .inl (if_neg hlive)
  · refine (Act.Evolves.ask x _ _ _).bind (fun _ => rfl) ?_
    rintro b _ rfl
    exact .pure (.refl _)
  · exact .pure (.refl _)

theorem instanceOf (t : String) : Evolves (.instanceOf t) (.instanceOf t) := by
  intro ctx
  refine Act.Evolves.platform.bind .refl fun p p' hp => ?_
  rw [Platform.isInstance_congr hp.types]
  exact .pure (.refl _)

theorem fixed (label : Option String) (outcome : String) :
    Evolves (.fixed label outcome) (.fixed label outcome) := by
  intro ctx
  refine (Act.Evolves.record rfl).bind (fun _ => trivial) fun _ _ _ => ?_
  cases Truth.ofName? outcome with
  | some t => exact .pure (.refl _)
  | none => exact .fail_left _ fun _ => .fail _

end Meaning.Evolves

/-! ## Expressions -/

namespace Expr

/-- **Expressions evolve**, if their references do. -/
theorem meaning_evolves {link link' : String → Meaning} (hlink : ∀ id, (link id).Evolves (link' id))
    (x : Expr) : (x.meaning link).Evolves (x.meaning link') := by
  induction x using Expr.inductionOn with
  | step x ih =>
  have hmap : ∀ {cs : List Expr}, (∀ c ∈ cs, (c.meaning link).Evolves (c.meaning link')) →
      List.Forall₂ Meaning.Evolves (meanings link cs) (meanings link' cs) := by
    intro cs hcs
    rw [meanings_eq_map, meanings_eq_map]
    exact List.forall₂_map_left_iff.2 (List.forall₂_map_right_iff.2 (List.forall₂_same.2 hcs))
  cases x with
  | and cs => exact .all (hmap ih)
  | or cs => exact .any (hmap ih)
  | not c => exact .not (ih c List.mem_cons_self)
  | enablement cs => exact .enablement (.all (hmap ih))
  | withVariable name cs => exact .withVariable (.all (hmap ih)) name
  | resolve name args cs => exact .resolve (.all (hmap ih)) name args
  | adapt target cs => exact .adapt (.all (hmap ih)) target
  | iterate o ifEmpty cs => exact .iterate (.all (hmap ih)) o ifEmpty
  | count mode => exact .count mode
  | equals v => exact fun _ => .pure (.refl _)
  | systemTest property value => exact .systemTest property value
  | test q => exact .test q
  | reference id linked => exact hlink id
  | instanceOf t => exact .instanceOf t
  | constant b => exact fun _ => .pure (.refl _)
  | fixed label outcome => exact .fixed label outcome
  | group o cs =>
    cases o with
    | and => exact .all (hmap ih)
    | or => exact .any (hmap ih)

end Expr

namespace Engine

/-- **References evolve**, at whatever depths they are followed the first time and later. -/
theorem linkWithin_evolves (depth depth' : ℕ) (id : String) :
    (linkWithin depth id).Evolves (linkWithin depth' id) := by
  induction depth generalizing depth' id with
  | zero => exact fun ctx => .fail_left _ fun e₀ => linkWithin_keeps (steady_since e₀) _ id ctx
  | succ depth ih =>
    cases depth' with
    | zero => exact fun ctx => .fail_right _ fun e₀ => linkWithin_keeps (steady_since e₀) _ id ctx
    | succ depth' =>
      intro ctx
      refine (Act.Evolves.definition id).bind (fun _ => rfl) ?_
      rintro x _ rfl
      exact x.meaning_evolves (ih depth') ctx

/-- **A settled outcome stays.** In a reachable engine whose searches do not go in circles, an
expression that has evaluated to true or false evaluates to the same, or fails, after any run of
lookups, evaluations, activations and deactivations of contributors and of loading adapters that
have been declared. Searches do not go in circles if the declared hierarchy has none and is the one
that the registrations have met (`Settled.orderly`). -/
theorem evaluate_stable {e : Engine} (h : e.Reachable)
    (hacyclic : NoCycle (e.registry.Walks e.platform)) (x : Expr) (ctx : Context) {t : Truth}
    (ht : (evaluate x ctx e).1 = .ok t) (hsettled : t ≠ .notLoaded) (steps : List Loading) :
    (evaluate x ctx (load steps (evaluate x ctx e).2)).1 = .ok t ∨
      ∃ f, (evaluate x ctx (load steps (evaluate x ctx e).2)).1 = .error f := by
  have he : e.Orderly := ⟨h.sound, hacyclic⟩
  have hafter := evaluate_keeps (steady_since e) x ctx e he.since
  have hlater := load_since steps hafter.orderly.since
  have hevolves := x.meaning_evolves (linkWithin_evolves (e.referenceDepth + maxReentries)
    ((load steps (evaluate x ctx e).2).referenceDepth + maxReentries)) ctx
  cases hu : (evaluate x ctx (load steps (evaluate x ctx e).2)).1 with
  | error f => exact .inr ⟨f, rfl⟩
  | ok u =>
    have htu : t.MayBecome u := hevolves.becomes he hlater.orderly hlater.later ht hu
    rw [htu.resolve_left hsettled]
    exact .inl rfl

/-- An engine with a tester of objects, whose host has declared how strings become lists. -/
def listsDeclared : Engine :=
  { run [.addTesters [ofObjects]] stringEngine with
    platform := stringHost.putAdapter "string" "List" .declared }

/-- Whether a string becomes an empty list, or has a property that objects are asked about. -/
def emptyListOrProperty : Expr :=
  .or [.adapt "List" [.count .none],
    .test { namespaceName := "ns", property := "p", force := true }]

/-- Asked of a string, where contributors may be activated. -/
def ofString : Context := [.frame { defaultVariable := .string "x", allowActivation := some true }]

/-- At first the adapter leaves one part open, and the tester settles the outcome. Then the adapter
is loaded and the contributor of the tester comes and goes; the outcome stays. -/
theorem emptyListOrProperty_stable :
    let later := load [.adapter "string" "List" fun _ => some (.array []), .activate "c",
        .lookUp (.string "x") "ns" "p" false, .deactivate "c"]
      (evaluate emptyListOrProperty ofString listsDeclared).2
    (evaluate emptyListOrProperty ofString listsDeclared).1 = .ok .yes ∧
      ((evaluate emptyListOrProperty ofString later).1 = .ok .yes ∨
        ∃ f, (evaluate emptyListOrProperty ofString later).1 = .error f) := by
  have hsettled : listsDeclared.Settled :=
    .host ((Settled.made make_stringEngine).run [.addTesters [ofObjects]])
      (stringHost.putAdapter "string" "List" .declared) {} _ rfl
  have hacyclic : listsDeclared.platform.Acyclic := stringHost_acyclic
  exact ⟨rfl, evaluate_stable hsettled.reachable (hsettled.orderly hacyclic).acyclic _ _ rfl
    (by decide) _⟩

end Engine

end Enablement
