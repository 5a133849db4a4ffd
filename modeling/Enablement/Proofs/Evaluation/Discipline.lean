import Enablement.Proofs.Evaluation.Sticky
import Enablement.Proofs.Registry.Requests
/-!
# Evaluation — when objects are asked for

The host is asked for an object inside a lookup only, for a registration that answers for what is
looked up, and only if its contributor is active or the lookup is forced; an object is only made
when it has been asked for. The lookups of an evaluation are those of the questions that the
expression poses or its definitions pose, and they are forced only where the question says so and
the context lets contributors be activated. All of this is said of the journal: every event in it is
warranted by the events before it (`Engine.Justified`).
-/

namespace Enablement

namespace Engine

open Registry

variable {e e' e₀ : Engine} {key : PropertyKey} {force : Bool} {before events events' : List Event}
  {looks : PropertyKey → Bool → Prop}

/-! ## Warranted events -/

/-- An event is warranted by the events before it. A lookup is one of those that there may be. An
object is asked for after a lookup, with nothing but log lines in between, for a registration that
answers for what is looked up and whose contributor is active unless the lookup is forced. An object
is made right after it has been asked for. -/
def Warranted (e : Engine) (looks : PropertyKey → Bool → Prop) (before : List Event) : Event → Prop
  | .lookedUp key force => looks key force
  | .requested t i => ∃ (earlier : List Event) (key : PropertyKey) (force : Bool)
      (notes : List Note) (d : Descriptor),
      before = earlier ++ .lookedUp key force :: notes.map .noted ∧
      (e.registry.registrations t)[i]? = some d ∧ d.handles key.namespaceName key.name = true ∧
      (force = true ∨ e.platform.isActive d.contributor = true)
  | .created className => ∃ (earlier : List Event) (t : String) (i : ℕ) (d : Descriptor),
      before = earlier ++ [.requested t i] ∧ (e.registry.registrations t)[i]? = some d ∧
      d.className = className
  | _ => True

/-- Every event is warranted by the events before it. -/
def Justified (e : Engine) (looks : PropertyKey → Bool → Prop) : (before : List Event) →
    List Event → Prop
  | _, [] => True
  | before, ev :: events => e.Warranted looks before ev ∧ e.Justified looks (before ++ [ev]) events

theorem Justified.append (h : e.Justified looks before events)
    (h' : e.Justified looks (before ++ events) events') :
    e.Justified looks before (events ++ events') := by
  induction events generalizing before with
  | nil =>
    rw [List.append_nil] at h'
    exact h'
  | cons ev events ih =>
    refine ⟨h.1, ih h.2 ?_⟩
    rw [List.append_assoc]
    exact h'

/-- What evaluation records of itself needs no warrant. -/
theorem justified_of_isRemark (h : ∀ ev ∈ events, ev.isRemark = true) :
    e.Justified looks before events := by
  induction events generalizing before with
  | nil => trivial
  | cons ev events ih =>
    obtain ⟨hev, hevents⟩ := List.forall_mem_cons.1 h
    refine ⟨?_, ih hevents⟩
    cases ev with
    | asked call => trivial
    | fixed label outcome receiver => trivial
    | noted note => trivial
    | _ => cases hev

theorem justified_notes (notes : List Note) : e.Justified looks before (notes.map .noted) :=
  justified_of_isRemark (List.forall_mem_map.2 fun _ _ => rfl)

/-- **What a lookup asks for is warranted by the lookup.** -/
theorem Attempt.justified {earlier : List Event} {notes : List Note}
    (h : Attempt e key force e' events) (hplaced : e.registry.Placed) :
    e.Justified looks (earlier ++ .lookedUp key force :: notes.map .noted) events := by
  cases h with
  | nothing slots => trivial
  | @object c slot made notes' holds handles dormant wanted slots spent made_eq =>
    have hplace := hplaced _ _ _ holds
    refine ⟨⟨earlier, key, force, notes, c.handle.descriptor, rfl, hplace, handles, wanted⟩, ?_⟩
    refine Justified.append ?_ (justified_notes notes')
    rcases made_eq with rfl | rfl
    · trivial
    · exact ⟨⟨_, c.typeName, c.place, c.handle.descriptor, rfl, hplace, rfl⟩, trivial⟩

/-- What is warranted is a matter of the registrations and of who is active. -/
theorem Justified.congr (h : e.Justified looks before events)
    (hr : e'.registry.registered = e.registry.registered)
    (ha : e'.platform.activeContributors = e.platform.activeContributors) :
    e'.Justified looks before events := by
  induction events generalizing before with
  | nil => trivial
  | cons ev events ih =>
    refine ⟨?_, ih h.2⟩
    have hev := h.1
    cases ev with
    | requested t i =>
      obtain ⟨earlier, key, force, notes, d, hbefore, hd, hhandles, hwanted⟩ := hev
      refine ⟨earlier, key, force, notes, d, hbefore, ?_, hhandles, ?_⟩
      · rw [registrations_congr hr, hd]
      · rw [Platform.isActive, ha]
        exact hwanted
    | created className =>
      obtain ⟨earlier, t, i, d, hbefore, hd, hclass⟩ := hev
      exact ⟨earlier, t, i, d, hbefore, by rw [registrations_congr hr, hd], hclass⟩
    | _ => exact hev

/-! ## In the midst of a move -/

/-- An engine since an earlier one: the definitions, the registrations and the active contributors
are the same, and what has been recorded is justified. -/
structure Underway (looks : PropertyKey → Bool → Prop) (e₀ e : Engine) : Prop where
  sound : e.registry.Sound
  definitions : e₀.SameDefinitions e
  registered : e.registry.registered = e₀.registry.registered
  active : e.platform.activeContributors = e₀.platform.activeContributors
  journal : ∃ recorded, e.journal = e₀.journal ++ recorded ∧ e₀.Justified looks [] recorded

theorem underway_refl (hsound : e.registry.Sound) : Underway looks e e :=
  ⟨hsound, .refl e, rfl, rfl, [], (List.append_nil _).symm, trivial⟩

/-- More may be recorded that is warranted by what has been recorded. -/
theorem Underway.extend (he : Underway looks e₀ e) (hj : e'.journal = e.journal ++ events)
    (hevents : ∀ before, e.Justified looks before events) (hsound : e'.registry.Sound)
    (hd : e₀.SameDefinitions e') (hr : e'.registry.registered = e.registry.registered)
    (ha : e'.platform.activeContributors = e.platform.activeContributors) :
    Underway looks e₀ e' := by
  obtain ⟨recorded, hrecorded, hjustified⟩ := he.journal
  have hmore := (hevents recorded).congr he.registered.symm he.active.symm
  refine ⟨hsound, hd, hr.trans he.registered, ha.trans he.active, recorded ++ events, ?_,
    hjustified.append hmore⟩
  rw [hj, hrecorded, List.append_assoc]

theorem Underway.record (e : Engine) (ev : Event) (hev : ev.isRemark = true)
    (he : Underway looks e₀ e) : Underway looks e₀ (e.record ev) := by
  have hj : (e.record ev).journal = e.journal ++ [ev] := rfl
  refine he.extend hj (fun before => justified_of_isRemark ?_) he.sound
    (he.definitions.congr rfl rfl) rfl rfl
  intro ev' hev'
  rw [List.mem_singleton.1 hev', hev]

theorem Underway.definition (id : String) : Act.Keeps (Underway looks e₀) (definition id) := by
  intro e he
  have hdefinitions := (steady_sameDefinitions e₀).definition id e he.definitions
  obtain ⟨notes, hd⟩ := definition_eq id e
  rw [hd] at hdefinitions ⊢
  exact he.extend rfl (fun before => justified_notes notes) he.sound hdefinitions rfl rfl

/-- **A lookup that there may be** is justified with all that it asks for. -/
theorem Underway.resolve (receiver : Value) (namespaceName property : String) (force : Bool)
    (hlooks : looks ⟨receiver.typeName, namespaceName, property⟩ force) :
    Act.Keeps (Underway looks e₀) (resolve receiver namespaceName property force) := by
  intro e he
  let key : PropertyKey := ⟨receiver.typeName, namespaceName, property⟩
  obtain ⟨notes, events, hj, hattempt⟩ := resolve_records receiver key rfl force e
  obtain ⟨_, _, hs⟩ := resolve_shows receiver namespaceName property force e
  obtain ⟨n, hplatform⟩ := hs.platform
  have hsound := (resolve_answers he.sound receiver namespaceName property force).sound
  have hdefinitions := (steady_sameDefinitions e₀).resolve receiver namespaceName property force e
    he.definitions
  refine he.extend hj (fun before => ⟨hlooks, ?_⟩) hsound hdefinitions hs.registered ?_
  · refine (justified_notes notes).append ?_
    rw [List.append_assoc, List.singleton_append]
    exact hattempt.justified he.sound.placed
  · rw [hplatform]

/-! ## The lookups of a move -/

/-- An expression poses the questions to testers that it contains, and those of the definitions that
it refers to. -/
inductive Poses (e : Engine) : Expr → PropertyTest → Prop
  | own {x : Expr} {q : PropertyTest} (hq : .test q ∈ x.leaves) : Poses e x q
  | referred {x y : Expr} {id : String} {linked : Bool} {q : PropertyTest}
    (hid : .reference id linked ∈ x.leaves) (hy : e.defined id = .ok y) (hq : Poses e y q) :
    Poses e x q

/-- The lookups that a question may make, where contributors may be activated or not. -/
def Admits (looks : PropertyKey → Bool → Prop) (allowed : Bool) (q : PropertyTest) : Prop :=
  ∀ key : PropertyKey, key.namespaceName = q.namespaceName → key.name = q.property →
    looks key (allowed && q.force)

/-- The lookups of a move. In an evaluation they are forced where the question and the context both
say so. All scopes that an evaluation adds leave that to the context that it started in. -/
def Move.Looks (e : Engine) : Move → PropertyKey → Bool → Prop
  | .lookUp receiver namespaceName property force, key, forced =>
    key = ⟨receiver.typeName, namespaceName, property⟩ ∧ forced = force
  | .evaluate x ctx, key, forced => ∃ q, e.Poses x q ∧ key.namespaceName = q.namespaceName ∧
    key.name = q.property ∧ forced = (Context.allowActivation ctx && q.force)
  | _, _, _ => False

variable {allowed : Bool}

/-- **The lookups of an expression are justified** if its questions may make them, and its
references keep to that. -/
theorem Underway.meaning {link : String → Meaning} {x : Expr}
    (htest : ∀ q, .test q ∈ x.leaves → Admits looks allowed q)
    (hlink : ∀ id linked, .reference id linked ∈ x.leaves →
      (link id).KeepsIn (Context.allowActivation · = allowed) (Underway looks e₀)) :
    (x.meaning link).KeepsIn (Context.allowActivation · = allowed) (Underway looks e₀) := by
  refine x.meaning_keepsIn_of_leaves (Context.rebinding_allowActivation allowed)
    (fun e n => Underway.record e (.noted n) rfl) (fun q hq ctx hctx => ?_) hlink
    fun label outcome _ ctx _ => .fixed Underway.record label outcome ctx
  refine .test Underway.record (Underway.resolve _ _ _ _ ?_)
  rw [hctx]
  exact htest q hq _ rfl rfl

/-- So are those of a reference, however deep definitions may be entered. -/
theorem Underway.linkWithin (depth : ℕ) (id : String)
    (hid : ∀ y q, e₀.defined id = .ok y → e₀.Poses y q → Admits looks allowed q) :
    (linkWithin depth id).KeepsIn (Context.allowActivation · = allowed) (Underway looks e₀) := by
  induction depth generalizing id with
  | zero => exact fun _ _ => .fail _
  | succ depth ih =>
    intro ctx hctx
    refine (Underway.definition id).bind_of_results fun e x he hend => ?_
    -- the definition is the one that the reference stood for at first
    have hx := he.definitions.defined_of_definition hend
    refine Underway.meaning (fun q hq => hid x q hx (.own hq)) (fun id' linked hid' => ?_) ctx hctx
    exact ih id' fun y q hy hq => hid x q hx (.referred hid' hy hq)

/-- **What a move records is justified** by the lookups of the move. -/
theorem Move.perform_underway (m : Move) (hsound : e.registry.Sound) :
    ∃ recorded, (m.perform e).journal = e.journal ++ recorded ∧
      e.Justified (m.Looks e) [] recorded := by
  have hstart : Underway (m.Looks e) e e := underway_refl hsound
  have hchange : e.Justified (m.Looks e) [] [.noted .registryChanged] :=
    justified_notes [.registryChanged]
  cases m with
  | lookUp receiver namespaceName property force =>
    exact (Underway.resolve receiver namespaceName property force ⟨rfl, rfl⟩ e hstart).journal
  | evaluate x ctx =>
    have hadmits : ∀ q, e.Poses x q →
        Admits ((Move.evaluate x ctx).Looks e) (Context.allowActivation ctx) q :=
      fun q hq key hnamespace hname => ⟨q, hq, hnamespace, hname, rfl⟩
    have hmeaning : (x.meaning (Engine.linkWithin (e.referenceDepth + maxReentries))).KeepsIn _
        (Underway ((Move.evaluate x ctx).Looks e) e) :=
      Underway.meaning (fun q hq => hadmits q (.own hq)) fun id linked hid =>
        Underway.linkWithin _ id fun y q hy hq => hadmits q (.referred hid hy hq)
    exact (hmeaning ctx rfl e hstart).journal
  | addTesters ds => exact ⟨_, rfl, hchange⟩
  | removeContributor contributor => exact ⟨_, rfl, hchange⟩
  | registryChanged => exact ⟨_, rfl, hchange⟩
  | activate contributor => exact ⟨[], (List.append_nil _).symm, trivial⟩
  | deactivate contributor => exact ⟨[], (List.append_nil _).symm, trivial⟩

/-- **The discipline of instantiation.** In a reachable engine, as long as the registrations stay,
the host is asked for the object of each of them at most once, whatever is looked up and evaluated
and whatever the host does meanwhile. And in each move it is asked only inside a lookup, for a
registration that answers for it, while its contributor is active or with force; where an evaluation
looks something up with force, the question and the context both say so. -/
theorem Reachable.instantiation_disciplined (h : e.Reachable) :
    (∀ during : List Deed, (∀ deed ∈ during, deed.isRegistryChange = false) →
      ∃ recorded, (after during e).journal = e.journal ++ recorded ∧ (requests recorded).Nodup) ∧
    ∀ m : Move, ∃ recorded, (m.perform e).journal = e.journal ++ recorded ∧
      e.Justified (m.Looks e) [] recorded :=
  ⟨fun _ hduring => requests_nodup e hduring, fun m => m.perform_underway h.sound⟩

/-- A question about a property whose tester the host cannot make, and one that it can. -/
def bothProperties : Expr :=
  .or [.test { namespaceName := "ns", property := "q", force := true },
    .test { namespaceName := "ns", property := "p", force := true }]

/-- A string is asked about both twice, and in between lookups drive each other out of the cache.
The host is asked for each object once: the first time it refuses one, which ends the evaluation,
and the second time nothing is left to ask for. -/
def bothAskedTwice : List Deed :=
  let asked := Move.evaluate bothProperties
    [.frame { defaultVariable := .string "x", allowActivation := some true }]
  [.move asked, .move (.lookUp (.string "x") "ns" "p" true),
    .move (.lookUp (.string "x") "ns" "a" true), .move asked]

theorem bothAskedTwice_disciplined :
    narrowEngine.Reachable ∧ (∀ deed ∈ bothAskedTwice, deed.isRegistryChange = false) ∧
      ∃ recorded, (after bothAskedTwice narrowEngine).journal = narrowEngine.journal ++ recorded ∧
        (requests recorded).Nodup ∧
        requests recorded = [("Object", 0), ("Object", 1), ("string", 0)] := by
  have hreachable : narrowEngine.Reachable := settled_narrowEngine.reachable
  have hduring : ∀ deed ∈ bothAskedTwice, deed.isRegistryChange = false := by decide
  obtain ⟨recorded, hj, hnodup⟩ := hreachable.instantiation_disciplined.1 bothAskedTwice hduring
  refine ⟨hreachable, hduring, recorded, hj, hnodup, ?_⟩
  calc requests recorded = requests (narrowEngine.journal ++ recorded) := by
        rw [requests_append]
        rfl
    _ = requests (after bothAskedTwice narrowEngine).journal := by rw [hj]
    _ = [("Object", 0), ("Object", 1), ("string", 0)] := rfl

end Engine

end Enablement
