import Enablement.Proofs.Evaluation.Agreement
import Enablement.Proofs.Registry.Testers
import Enablement.Proofs.Scope.Frames
import Enablement.Proofs.Value.Congruence
/-!
# Hosts — testers, resolvers and adapters that go by equality

The host's own code is respectful when it answers equal values alike: testers with the same truth
value, resolvers with the same fault or equal values, adapters with equal values. An engine that has
respectful testers and adapters goes on to have them (`Engine.steady_respectful`), and contexts with
respectful resolvers give equal answers for equal arguments.
-/

namespace Enablement

/-- Two ways to end that are the same fault, or values that are related. -/
inductive SameEnd {α : Type} (R : α → α → Prop) : Except Fault α → Except Fault α → Prop
  | ok {a b : α} (h : R a b) : SameEnd R (.ok a) (.ok b)
  | error (f : Fault) : SameEnd R (.error f) (.error f)

/-- A tester that does not tell equal values apart. -/
def Tester.Respectful (run : Tester) : Prop :=
  ∀ (property : String) (v w : Value) (args args' : List Value) (expected expected' : Option Value),
    (v == w) = true → Value.sameItems args args' = true → (expected == expected') = true →
      run v property args expected = run w property args' expected'

/-- A resolver that does not. -/
def Resolver.Respectful (r : Resolver) : Prop :=
  ∀ (name : String) (args args' : List Value), Value.sameItems args args' = true →
    SameEnd (fun v w => (v == w) = true) (r name args) (r name args')

/-- Adapters that do not. -/
def Platform.RespectfulAdapters (p : Platform) : Prop :=
  ∀ (source target : String) (f : Value → Option Value),
    (p.adapters.find? source).bind (·.find? target) = some (.loaded f) →
      ∀ v w : Value, (v == w) = true → (f v == f w) = true

/-- Respectful adapters make equal values of equal values. -/
theorem Platform.RespectfulAdapters.adapt? {p : Platform} (hp : p.RespectfulAdapters) {v w : Value}
    (h : (v == w) = true) (target : String) : (p.adapt? v target == p.adapt? w target) = true := by
  rw [Platform.adapt?, Platform.adapt?, ← p.adapter?_congr_value h]
  cases hadapter : p.adapter? v target with
  | none => rfl
  | some a =>
    cases a with
    | declared => rfl
    | loaded f => exact hp _ _ f hadapter v w h

/-- An engine all of whose testers and adapters are respectful. -/
structure Engine.Respectful (e : Engine) : Prop where
  testers : e.EveryTester Tester.Respectful
  adapters : e.platform.RespectfulAdapters

/-- **An engine stays respectful.** -/
theorem Engine.steady_respectful : Steady Engine.Respectful where
  record _ _ hev he := ⟨(steady_everyTester _).record _ _ hev he.testers, he.adapters⟩
  resolve receiver namespaceName property force e he := by
    refine ⟨(steady_everyTester _).resolve _ _ _ _ e he.testers, ?_⟩
    obtain ⟨_, _, hs⟩ := resolve_shows receiver namespaceName property force e
    obtain ⟨n, hp⟩ := hs.platform
    rw [hp]
    exact he.adapters
  definition id e he := by
    refine ⟨(steady_everyTester _).definition id e he.testers, ?_⟩
    obtain ⟨_, hd⟩ := definition_eq id e
    rw [hd]
    exact he.adapters

/-- Moves keep it so: they change neither what the host makes testers of nor its adapters. -/
theorem Engine.Respectful.perform {e : Engine} (he : e.Respectful) (m : Move) :
    (m.perform e).Respectful := by
  refine ⟨he.testers.perform m, ?_⟩
  cases m with
  | lookUp receiver namespaceName property force =>
    exact (steady_respectful.resolve _ _ _ _ e he).adapters
  | evaluate x ctx => exact (evaluate_keeps steady_respectful x ctx e he).adapters
  | _ => exact he.adapters

theorem Engine.Respectful.run {e : Engine} (he : e.Respectful) (ms : List Move) :
    (run ms e).Respectful := by
  induction ms generalizing e with
  | nil => exact he
  | cons m ms ih => exact ih (he.perform m)

/-- **An engine in use on a respectful host is respectful.** -/
theorem Engine.respectful_run {platform : Platform} {options : Options} {handlers : List Handler}
    {e : Engine} (hmade : make platform options handlers = .ok e)
    (htesters : ∀ className run, platform.classes.find? className = some (.tester run) →
      run.Respectful) (hadapters : platform.RespectfulAdapters) (ms : List Move) :
    (run ms e).Respectful :=
  Respectful.run ⟨everyTester_make hmade htesters, by rwa [(make_consistent hmade).2]⟩ ms

namespace Context

variable {c c' : Context} {s s' : Scope} {name : String} {args args' : List Value}

/-- A context all of whose resolvers are respectful. -/
def Respectful (c : Context) : Prop := ∀ f ∈ c.frames, ∀ r ∈ f.resolvers, Resolver.Respectful r

/-- Two contexts give equal answers to equal questions. -/
structure EqualAnswers (c c' : Context) : Prop where
  defaultVariable : (defaultVariable c == defaultVariable c') = true
  binding : ∀ name, (binding? name c == binding? name c') = true
  answer : ∀ name args args', Value.sameItems args args' = true →
    SameEnd (fun v w => (v == w) = true) (resolve name args c) (resolve name args' c')
  allowActivation : allowActivation c = allowActivation c'

theorem askAll_sameEnd {rs : List Resolver} (h : ∀ r ∈ rs, Resolver.Respectful r)
    (hargs : Value.sameItems args args' = true) :
    SameEnd (fun v w => (v == w) = true) (askAll name args rs) (askAll name args' rs) := by
  induction rs with
  | nil => exact .ok rfl
  | cons r rs ih =>
    have hrest := ih fun q hq => h q (List.mem_cons_of_mem r hq)
    have hr := h r List.mem_cons_self name args args' hargs
    rw [askAll, askAll]
    generalize r name args = a at hr ⊢
    generalize r name args' = b at hr ⊢
    cases hr with
    | error f => exact .error f
    | @ok v w hvw =>
      cases v with
      | none =>
        cases w with
        | none => exact hrest
        | some w => cases hvw
      | some v =>
        cases w with
        | none => cases hvw
        | some w => exact .ok hvw

/-- **A respectful context gives equal answers to equal questions.** -/
theorem Respectful.equalAnswers (h : c.Respectful) : c.EqualAnswers c where
  defaultVariable := beq_self_eq_true _
  binding _ := BEq.refl _
  answer name args args' hargs := by
    rw [resolve_eq, resolve_eq]
    refine askAll_sameEnd (fun r hr => ?_) hargs
    obtain ⟨f, hf, hr⟩ := List.mem_flatMap.1 hr
    exact h f hf r hr
  allowActivation := rfl

/-- Scopes that rebind the default variable to equal values keep the answers equal. -/
theorem EqualAnswers.push (h : c.EqualAnswers c') (hs : s.Plain) (hs' : s'.Plain)
    (hv : (s.defaultVariable == s'.defaultVariable) = true) :
    EqualAnswers (s :: c) (s' :: c') where
  defaultVariable := hv
  binding name := by rw [hs.binding, hs'.binding]; exact h.binding name
  answer name args args' hargs := by
    rw [hs.answer, hs'.answer]
    exact h.answer name args args' hargs
  allowActivation := by rw [hs.allowActivation, hs'.allowActivation, h.allowActivation]

end Context

end Enablement
