import Enablement.Proofs.Access.Asks
import Enablement.Proofs.Registry.Reachable
/-!
# Evaluation — what it leaves in the journal

An evaluation looks properties up and puts questions to testers, and each of these is an event in
the journal. The lookups are those of the questions in the expression and in the definitions that it
refers to, so the access record names all of them; and a tester is only asked right after the lookup
that has found it (`evaluate_journal_named`). This holds however the evaluation ends, and however
far it gets.
-/

namespace Enablement

open Engine

/-- The text that stands for a property in access records. -/
def PropertyKey.qualified (key : PropertyKey) : String := key.namespaceName ++ "." ++ key.name

/-! ## Journals -/

/-- A question is put to a tester that was looked up under a key: it is about the property, to a
value of the key's type, and the tester's declaration answers for the property. -/
structure TesterCall.Under (call : TesterCall) (key : PropertyKey) : Prop where
  property : call.property = key.name
  receiver : call.receiver.typeName = key.typeName
  declared : ∃ d : Descriptor, d.handles key.namespaceName key.name = true ∧
    d.className = call.className

/-- The events of a journal look up properties that are named, and every question to a tester
follows its own lookup: there are only quiet events between the two. -/
structure NamedBy (names : NameSet) (events : List Event) : Prop where
  lookups : ∀ key force, .lookedUp key force ∈ events → names.contains key.qualified = true
  calls : ∀ before call after, events = before ++ .asked call :: after →
    ∃ earlier key force quiet, before = earlier ++ .lookedUp key force :: quiet ∧
      (∀ ev ∈ quiet, ev.isQuiet = true) ∧ call.Under key

namespace NamedBy

variable {names : NameSet} {events events' quiet : List Event} {key : PropertyKey} {force : Bool}

/-- Events that are neither lookups nor questions need no names. -/
theorem of_others (h : ∀ ev ∈ events, (∀ key force, ev ≠ .lookedUp key force) ∧
    ∀ call, ev ≠ .asked call) : NamedBy names events where
  lookups key force hmem := absurd rfl ((h _ hmem).1 key force)
  calls before call after heq := by
    have hmem : .asked call ∈ events := by simp [heq]
    exact absurd rfl ((h _ hmem).2 call)

theorem of_quiet (h : ∀ ev ∈ events, ev.isQuiet = true) : NamedBy names events := by
  refine of_others fun ev hev => ⟨?_, ?_⟩
  · rintro key force rfl
    exact nomatch h _ hev
  · rintro call rfl
    exact nomatch h _ hev

/-- One journal after another. -/
theorem append (h : NamedBy names events) (h' : NamedBy names events') :
    NamedBy names (events ++ events') where
  lookups key force hmem := by
    rcases List.mem_append.1 hmem with hmem | hmem
    · exact h.lookups key force hmem
    · exact h'.lookups key force hmem
  calls before call after heq := by
    -- the question stands in one of the two journals
    rcases List.append_eq_append_iff.1 heq with ⟨between, rfl, heq'⟩ | ⟨between, rfl, heq'⟩
    · obtain ⟨earlier, key, force, quiet, rfl, hquiet⟩ := h'.calls between call after heq'
      exact ⟨events ++ earlier, key, force, quiet, by simp, hquiet⟩
    · cases between with
      | nil =>
        obtain ⟨earlier, key, force, quiet, hnil, -⟩ := h'.calls [] call after heq'.symm
        simp at hnil
      | cons ev between =>
        obtain ⟨rfl, -⟩ := List.cons.inj heq'
        exact h.calls before call between rfl

/-- A lookup of a property that is named. -/
theorem lookedUp (hkey : names.contains key.qualified = true)
    (hquiet : ∀ ev ∈ quiet, ev.isQuiet = true) :
    NamedBy names (.lookedUp key force :: quiet) where
  lookups key' force' hmem := by
    rcases List.mem_cons.1 hmem with heq | hmem
    · cases heq
      exact hkey
    · exact nomatch hquiet _ hmem
  calls before call after heq := by
    have hmem : .asked call ∈ Event.lookedUp key force :: quiet := by simp [heq]
    rcases List.mem_cons.1 hmem with heq | hmem
    · cases heq
    · exact nomatch hquiet _ hmem

/-- A lookup with a question to the tester that it has found. -/
theorem asked (hkey : names.contains key.qualified = true)
    (hquiet : ∀ ev ∈ quiet, ev.isQuiet = true) {call : TesterCall} (hcall : call.Under key) :
    NamedBy names (.lookedUp key force :: quiet ++ [.asked call]) where
  lookups key' force' hmem := by
    rcases List.mem_append.1 hmem with hmem | hmem
    · exact (lookedUp hkey hquiet).lookups key' force' hmem
    · cases List.mem_singleton.1 hmem
  calls before call' after heq := by
    have hlast : before = .lookedUp key force :: quiet ∧ call' = call := by
      rcases List.append_eq_append_iff.1 heq with ⟨between, rfl, heq'⟩ | ⟨between, heq', hlast⟩
      · cases between with
        | nil =>
          cases heq'
          exact ⟨List.append_nil _, rfl⟩
        | cons ev between => simp at heq'
      · cases between with
        | nil =>
          cases hlast
          exact ⟨by rw [heq', List.append_nil], rfl⟩
        | cons ev between =>
          -- a question before the last event would stand among the others
          obtain ⟨rfl, -⟩ := List.cons.inj hlast
          have hmem : .asked call' ∈ Event.lookedUp key force :: quiet := by simp [heq']
          rcases List.mem_cons.1 hmem with heq | hmem
          · cases heq
          · exact nomatch hquiet _ hmem
    obtain ⟨rfl, rfl⟩ := hlast
    exact ⟨[], key, force, quiet, rfl, hquiet, hcall⟩

end NamedBy

/-! ## Single acts -/

namespace Engine

variable {e e₀ : Engine} {names : NameSet}

/-- After an engine, nothing has been recorded but quiet events. -/
def QuietlyAfter (events : List Event) (e : Engine) : Prop :=
  ∃ quiet, (∀ ev ∈ quiet, ev.isQuiet = true) ∧ e.journal = events ++ quiet

theorem QuietlyAfter.record {events : List Event} {ev : Event} (h : QuietlyAfter events e)
    (hev : ev.isQuiet = true) : QuietlyAfter events (e.record ev) := by
  obtain ⟨quiet, hquiet, hj⟩ := h
  refine ⟨quiet ++ [ev], fun ev' hmem => ?_, ?_⟩
  · rcases List.mem_append.1 hmem with hmem | hmem
    · exact hquiet ev' hmem
    · rw [List.mem_singleton.1 hmem]
      exact hev
  · rw [Engine.record, hj, List.append_assoc]

theorem lasting_quietlyAfter (events : List Event) : Lasting (QuietlyAfter events) where
  record _ _ hev he := he.record hev
  objectCount _ _ he := he
  setSlots _ _ _ he := he
  setSuperTypes _ _ he := he
  setCache _ _ he := he

/-- **A lookup leaves itself in the journal**, and quiet events. -/
theorem resolve_quietly (receiver : Value) (namespaceName property : String) (force : Bool)
    (e : Engine) :
    QuietlyAfter
      (e.journal ++ [.lookedUp ⟨receiver.typeName, namespaceName, property⟩ force])
      (resolve receiver namespaceName property force e).2 := by
  refine (lasting_quietlyAfter _).resolve receiver namespaceName property force ?_
  exact ⟨[], List.forall_mem_nil _, (List.append_nil _).symm⟩

/-- Asking for a definition leaves log lines only. -/
theorem definition_quietly (id : String) (e : Engine) :
    QuietlyAfter e.journal (definition id e).2 := by
  obtain ⟨notes, hd⟩ := definition_eq id e
  rw [hd]
  exact ⟨notes.map .noted, List.forall_mem_map.2 fun _ _ => rfl, rfl⟩

/-! ## What an evaluation has recorded so far -/

/-- An engine with a sound registry, where names are defined as in an earlier one and what has been
recorded since is named. -/
structure Records (names : NameSet) (e₀ : Engine) (events : List Event) (e : Engine) : Prop where
  sound : e.registry.Sound
  definitions : e₀.SameDefinitions e
  journal : ∃ recorded, e.journal = events ++ recorded ∧ NamedBy names recorded

variable {events : List Event}

/-- More may be recorded that is named. -/
theorem Records.extend {e' : Engine} {more : List Event} (he : Records names e₀ events e)
    (hsound : e'.registry.Sound) (hdefinitions : e₀.SameDefinitions e')
    (hj : e'.journal = e.journal ++ more) (hmore : NamedBy names more) :
    Records names e₀ events e' := by
  obtain ⟨recorded, hrecorded, hnamed⟩ := he.journal
  exact ⟨hsound, hdefinitions, recorded ++ more, by rw [hj, hrecorded, List.append_assoc],
    hnamed.append hmore⟩

theorem Records.note (he : Records names e₀ events e) (n : Note) :
    Records names e₀ events (e.note n) :=
  he.extend he.sound (he.definitions.congr rfl rfl) rfl (.of_quiet fun ev hev => by
    rw [List.mem_singleton.1 hev]
    rfl)

theorem Records.definition (id : String) : Act.Keeps (Records names e₀ events) (definition id) := by
  intro e he
  obtain ⟨quiet, hquiet, hj⟩ := definition_quietly id e
  exact he.extend (steady_sound.definition id e he.sound)
    ((steady_sameDefinitions e₀).definition id e he.definitions) hj (.of_quiet hquiet)

/-- A question to an instantiated tester is recorded with what is known of the tester. -/
theorem ask_of_object {r : Resolved} {o : TesterObject} (ho : r.handle.object = some o)
    (receiver : Value) (args : List Value) (expected : Option Value) (e : Engine) :
    ask r receiver args expected e = (.ok (o.run receiver r.key.name args expected),
      e.record (.asked
        { className := r.handle.descriptor.className, property := r.key.name, receiver, args,
          expected, result := o.run receiver r.key.name args expected })) := by
  rw [ask, ho]
  rfl

/-- **A question to a tester records its lookup**, and then the question if the tester is there. -/
theorem Records.test {q : PropertyTest} (hq : names.contains q.qualified = true) :
    Meaning.Keeps (Records names e₀ events) (.test q) := by
  intro ctx
  refine .ite (.platformTest q) fun e he => ?_
  set receiver := Context.defaultVariable ctx
  set force := Context.allowActivation ctx && q.force
  have hkey : names.contains (PropertyKey.qualified
      ⟨receiver.typeName, q.namespaceName, q.property⟩) = true := hq
  have hanswers := resolve_answers he.sound receiver q.namespaceName q.property force
  have hdefinitions := (steady_sameDefinitions e₀).resolve receiver q.namespaceName q.property force
    e he.definitions
  obtain ⟨quiet, hquiet, hj⟩ := resolve_quietly receiver q.namespaceName q.property force e
  rw [List.append_assoc, List.singleton_append] at hj
  rcases hrun : resolve receiver q.namespaceName q.property force e with ⟨f | r, e'⟩
  · rw [hrun] at hanswers hdefinitions hj
    rw [Act.bind_of_error hrun]
    exact he.extend hanswers.sound hdefinitions hj (.lookedUp hkey hquiet)
  · rw [hrun] at hanswers hdefinitions hj
    rw [Act.bind_of_ok hrun]
    have hentry := hanswers.entry r rfl
    cases ho : r.handle.object with
    | none =>
      rw [if_neg (by simp [Handle.isInstantiated, ho])]
      exact he.extend hanswers.sound hdefinitions hj (.lookedUp hkey hquiet)
    | some o =>
      rw [if_pos (by simp [Handle.isInstantiated, ho]),
        Act.bind_of_ok (ask_of_object ho receiver q.args q.expected e')]
      set call : TesterCall :=
        { className := r.handle.descriptor.className, property := r.key.name, receiver,
          args := q.args, expected := q.expected,
          result := o.run receiver r.key.name q.args q.expected }
      have hcall : call.Under ⟨receiver.typeName, q.namespaceName, q.property⟩ :=
        ⟨by rw [← hentry.keyed], rfl, r.handle.descriptor, hentry.handles, rfl⟩
      have hnamed : NamedBy names
          (.lookedUp ⟨receiver.typeName, q.namespaceName, q.property⟩ force :: quiet ++
            [.asked call]) := .asked hkey hquiet hcall
      refine he.extend hanswers.sound (hdefinitions.congr rfl rfl) ?_ hnamed
      rw [Act.pure_apply, Engine.record, hj, List.append_assoc]

/-! ## Expressions -/

/-- What an accountable expression asks about is named, if its references keep to that. -/
theorem Records.meaning (link : String → Access) {refer : String → Meaning} {x : Expr}
    (hx : x.accountable = true)
    (hnames : ∀ n, (x.looks link).properties.contains n = true → names.contains n = true)
    (hrefer : ∀ id, (∀ n, (link id).properties.contains n = true → names.contains n = true) →
      (refer id).Keeps (Records names e₀ events)) :
    (x.meaning refer).Keeps (Records names e₀ events) := by
  refine x.meaning_keeps_of_leaves (fun e n he => he.note n) (fun q hq => ?_)
    (fun id linked hid => ?_) fun label outcome hf => ?_
  · exact Records.test (hnames _ (Expr.contains_looks_of_test hq))
  · obtain rfl := Expr.linked_of_accountable hx hid
    have hwithin := Expr.looks_asksWithin_of_mem_leaves link hid
    exact hrefer id fun n hn => hnames n (hwithin.properties n hn)
  · exact absurd hf (Expr.ne_fixed_of_accountable hx label outcome)

/-- A reference asks about what its definition does, however deep definitions may be entered. -/
theorem Records.linkWithin (hacyclic : e₀.DefinitionsAcyclic)
    (haccountable : ∀ id x, e₀.defined id = .ok x → x.accountable = true) (depth : ℕ) (id : String)
    (hnames : ∀ n, (e₀.looksOf id).properties.contains n = true → names.contains n = true) :
    (linkWithin depth id).Keeps (Records names e₀ events) := by
  induction depth generalizing id with
  | zero => exact fun _ => .fail _
  | succ depth ih =>
    intro ctx
    refine (Records.definition id).bind_of_results fun e x he hend => ?_
    -- the definition is as it was recorded from, and asks about what the reference does
    have hx := he.definitions.defined_of_definition hend
    rw [hacyclic.looksOf_eq hx] at hnames
    exact Records.meaning e₀.looksOf (haccountable id x hx) hnames ih ctx

/-- **The access record names every property that an evaluation looks up or asks about.** In a
reachable engine an evaluation adds to the journal lookups of properties that the record names, and
questions each of which follows its own lookup. The record may stem from another state of the engine
with the same definitions. -/
theorem evaluate_journal_named {e₀ e : Engine} (h : e.Reachable) (hsame : e₀.SameDefinitions e)
    (hacyclic : e₀.DefinitionsAcyclic)
    (haccountable : ∀ id x, e₀.defined id = .ok x → x.accountable = true) {x : Expr}
    (hx : x.accountable = true) (ctx : Context) :
    ∃ recorded, (evaluate x ctx e).2.journal = e.journal ++ recorded ∧
      NamedBy (access x e₀).1.properties recorded := by
  have hstart : Records (access x e₀).1.properties e₀ e.journal e :=
    ⟨h.sound, hsame, [], (List.append_nil _).symm, .of_quiet (List.forall_mem_nil _)⟩
  have hmeaning : (x.meaning (Engine.linkWithin (e.referenceDepth + maxReentries))).Keeps
      (Records (access x e₀).1.properties e₀ e.journal) := by
    refine Records.meaning e₀.looksOf hx (fun n hn => ?_)
      (Records.linkWithin hacyclic haccountable _)
    rw [access_fst]
    exact hn
  exact (hmeaning ctx e hstart).journal

/-- An engine with a tester of objects, where `d` asks about their property. -/
def propertyDefined : Engine :=
  { run [.addTesters [ofObjects]] stringEngine with
    definitions :=
      { expressions := .ofList
          [("d", .test { namespaceName := "ns", property := "p", force := true })] } }

/-- A reference to it, asked about a named variable, looks the property up and asks the tester. -/
theorem propertyDefined_journal_named :
    propertyDefined.Reachable ∧ propertyDefined.DefinitionsAcyclic ∧
      (access (.withVariable "v" [.reference "d" true]) propertyDefined).1.properties.toList =
        ["ns.p"] ∧
      ∃ recorded, (evaluate (.withVariable "v" [.reference "d" true])
          [.frame { bindings := .ofList [("v", .string "x")], allowActivation := some true }]
          propertyDefined).2.journal = propertyDefined.journal ++ recorded ∧
        NamedBy (access (.withVariable "v" [.reference "d" true]) propertyDefined).1.properties
          recorded := by
  have hreachable : propertyDefined.Reachable :=
    .host ((Settled.made make_stringEngine).run [.addTesters [ofObjects]]).reachable stringHost _ _
  have hacyclic : propertyDefined.DefinitionsAcyclic := acyclic_of_single rfl rfl
  refine ⟨hreachable, hacyclic, rfl, ?_⟩
  refine evaluate_journal_named hreachable (.refl _) hacyclic (fun id x hx => ?_) rfl _
  rw [eq_of_single rfl hx]
  rfl

end Engine

end Enablement
