import Enablement.Proofs.Evaluation.Blind
import Enablement.Proofs.Evaluation.Respectful
/-!
# Evaluation — equal expressions run in parallel

Two runs are parallel when they start from engines that differ in nothing but equal values in their
journals, end alike, and leave such engines behind (`Act.Parallel`). On a respectful host every way
of composing acts keeps runs parallel, and so do the questions: equal values are bound, iterated,
adapted and asked about alike. Equal expressions therefore evaluate in parallel in contexts that
give equal answers (`Engine.evaluate_parallel`).
-/

namespace Enablement

/-! ## Engines that differ in equal values -/

/-- Two events that differ at most in equal values, or in the label of a host's leaf. -/
inductive Event.Equal : Event → Event → Prop
  | same (ev : Event) : Equal ev ev
  | asked (className property : String) {v w : Value} {args args' : List Value}
      {expected expected' : Option Value} (result : Bool) (hv : (v == w) = true)
      (hargs : Value.sameItems args args' = true) (hexpected : (expected == expected') = true) :
      Equal (.asked ⟨className, property, v, args, expected, result⟩)
        (.asked ⟨className, property, w, args', expected', result⟩)
  | fixed (label label' : Option String) (outcome : String) {v w : Value} (hv : (v == w) = true) :
      Equal (.fixed label outcome v) (.fixed label' outcome w)

/-- Two engines that differ in nothing but equal values in their journals, on a respectful host. -/
structure Engine.Twins (e e' : Engine) : Prop where
  respectful : e.Respectful
  rest : { e' with journal := [] } = { e with journal := [] }
  journal : List.Forall₂ Event.Equal e.journal e'.journal

namespace Engine

variable {e e' : Engine}

theorem Respectful.twins (he : e.Respectful) : e.Twins e :=
  ⟨he, rfl, List.forall₂_same.2 fun ev _ => .same ev⟩

/-- They stay so when equal events are recorded. -/
theorem Twins.record (h : e.Twins e') {ev ev' : Event} (hremark : ev.isRemark = true)
    (hev : ev.Equal ev') : (e.record ev).Twins (e'.record ev') where
  respectful := steady_respectful.record e ev hremark h.respectful
  rest := h.rest
  journal := List.rel_append h.journal (.cons hev .nil)

theorem Twins.options (h : e.Twins e') : e'.options = e.options := (Engine.mk.inj h.rest).2.1

theorem Twins.definitions (h : e.Twins e') : e'.definitions = e.definitions :=
  (Engine.mk.inj h.rest).2.2.2.2.1

theorem Twins.platform (h : e.Twins e') : e'.platform = e.platform := (Engine.mk.inj h.rest).1

end Engine

/-! ## Parallel acts -/

namespace Act

variable {α β : Type} {x y : Act α} {f g : α → Act β}

/-- From twins, two acts end alike and leave twins behind. -/
def Parallel (x y : Act α) : Prop :=
  ∀ e e' : Engine, e.Twins e' → (x e).1 = (y e').1 ∧ (x e).2.Twins (y e').2

namespace Parallel

theorem pure (a : α) : Parallel (Pure.pure a : Act α) (Pure.pure a) := fun _ _ h => ⟨rfl, h⟩

theorem fail (f : Fault) : Parallel (Act.fail f : Act α) (Act.fail f) := fun _ _ h => ⟨rfl, h⟩

/-- An act that keeps respectful engines and does not read the journal is parallel to itself. -/
theorem of_unseeing (hx : ∀ earlier, Act.Unseeing (·.behind earlier) x)
    (hk : Act.Keeps Engine.Respectful x) : Parallel x x := by
  intro e e' h
  -- both engines are one engine without a journal, behind what was recorded before
  have hrespectful := hk e h.respectful
  rw [run_of_unseeing hx e] at hrespectful
  rw [run_of_unseeing hx e, run_of_unseeing hx e', h.rest]
  exact ⟨rfl, hrespectful, rfl,
    List.rel_append h.journal (List.forall₂_same.2 fun ev _ => .same ev)⟩

/-- Parallel acts go on in parallel with what the first ones can end with. -/
theorem bind_of_results (hxy : Parallel x y)
    (hfg : ∀ e a, e.Respectful → (x e).1 = .ok a → Parallel (f a) (g a)) :
    Parallel (x >>= f) (y >>= g) := by
  intro e e' h
  obtain ⟨hend, htwins⟩ := hxy e e' h
  have hnext := fun a => hfg e a h.respectful
  rw [bind_apply, bind_apply]
  rcases hx : x e with ⟨r, d⟩
  rcases hy : y e' with ⟨r', d'⟩
  rw [hx, hy] at hend htwins
  rw [hx] at hnext
  cases hend
  cases r with
  | error fault => exact ⟨rfl, htwins⟩
  | ok a => exact hnext a rfl d d' htwins

theorem bind (hxy : Parallel x y) (hfg : ∀ a, Parallel (f a) (g a)) :
    Parallel (x >>= f) (y >>= g) :=
  hxy.bind_of_results fun _ a _ _ => hfg a

theorem ite {p : Prop} [Decidable p] {x' y' : Act α} (h : Parallel x y) (h' : Parallel x' y') :
    Parallel (if p then x else x') (if p then y else y') := by
  split
  · exact h
  · exact h'

/-- What comes of the host comes of the same respectful host. -/
theorem platform {f g : Platform → Act α}
    (h : ∀ p, p.RespectfulAdapters → Parallel (f p) (g p)) :
    Parallel (Act.read (·.platform) >>= f) (Act.read (·.platform) >>= g) := by
  intro e e' htwins
  rw [read_bind, read_bind, htwins.platform]
  exact h e.platform htwins.respectful.adapters e e' htwins

/-- Ends that are the same go on in parallel. -/
theorem ofExcept {R : α → α → Prop} {r r' : Except Fault α} (h : SameEnd R r r')
    (hfg : ∀ a b, R a b → Parallel (f a) (g b)) :
    Parallel (Act.ofExcept r >>= f) (Act.ofExcept r' >>= g) := by
  cases h with
  | @ok a b hab => exact hfg a b hab
  | error fault => exact Parallel.fail fault

theorem joinUntil {xs ys : List (Act Truth)} (h : List.Forall₂ Parallel xs ys) (o : Connective)
    (t : Truth) : Parallel (Act.joinUntil o t xs) (Act.joinUntil o t ys) := by
  induction h generalizing t with
  | nil => exact .pure t
  | cons hxy _ ih => exact hxy.bind fun a => .ite (.pure _) (ih _)

end Parallel

end Act

/-! ## What is read off equal values -/

namespace Meaning

variable {v w : Value} {p : Platform}

/-- The sizes of equal values, and their elements, are read and adapted alike. -/
theorem collection_sameEnd {α : Type} {R : α → α → Prop} {read? : Value → Option α}
    (hp : p.RespectfulAdapters) (hread : ∀ v w : Value, (v == w) = true →
      Option.Rel R (read? v) (read? w)) (h : (v == w) = true) (target : String) :
    SameEnd (Option.Rel R) (collection p v target read?) (collection p w target read?) := by
  have hadapted := hp.adapt? h target
  have hvw := hread v w h
  rw [collection, collection]
  generalize read? v = a at hvw ⊢
  generalize read? w = b at hvw ⊢
  cases hvw with
  | some hab => exact .ok (.some hab)
  | none =>
    dsimp only
    rw [adaptCollection, adaptCollection, ← p.adapterStatus_congr_value h,
      ← Value.typeName_congr h]
    generalize p.adapt? v target = v' at hadapted ⊢
    generalize p.adapt? w target = w' at hadapted ⊢
    cases v' with
    | none =>
      cases w' with
      | none =>
        dsimp only
        split
        · exact .ok Option.Rel.none
        · exact .error _
      | some w' => cases hadapted
    | some v' =>
      cases w' with
      | none => cases hadapted
      | some w' =>
        have hread' := hread v' w' hadapted
        dsimp only
        generalize read? v' = a at hread' ⊢
        generalize read? w' = b at hread' ⊢
        cases hread' with
        | some hab => exact .ok (.some hab)
        | none => exact .error _

/-! ## Parallel meanings -/

/-- Two meanings are parallel in contexts that give equal answers. -/
def Parallel (m m' : Meaning) : Prop :=
  ∀ c c' : Context, c.EqualAnswers c' → Act.Parallel (m c) (m' c')

variable {m m' : Meaning} {ms ms' : List Meaning}

namespace Parallel

theorem map_acts (h : List.Forall₂ Parallel ms ms') {c c' : Context} (hc : c.EqualAnswers c') :
    List.Forall₂ Act.Parallel (ms.map (· c)) (ms'.map (· c')) := by
  rw [List.forall₂_map_left_iff, List.forall₂_map_right_iff]
  exact h.imp fun m m' hm => hm c c' hc

theorem all (h : List.Forall₂ Parallel ms ms') : Parallel (.all ms) (.all ms') := by
  intro c c' hc
  rw [Meaning.all, Meaning.all, Act.allOf_eq_joinUntil, Act.allOf_eq_joinUntil]
  exact .joinUntil (map_acts h hc) .and .yes

theorem any (h : List.Forall₂ Parallel ms ms') : Parallel (.any ms) (.any ms') := by
  intro c c' hc
  have hempty : ms.isEmpty = ms'.isEmpty := by cases h <;> rfl
  rw [Meaning.any, Meaning.any, Act.anyOf_eq_joinUntil, Act.anyOf_eq_joinUntil, hempty]
  exact .ite (.pure _) (.joinUntil (map_acts h hc) .or .no)

theorem enablement (h : Parallel m m') : Parallel (.enablement m) (.enablement m') := by
  intro c c' hc e e' htwins
  obtain ⟨hend, hafter⟩ := h c c' hc e e' htwins
  rw [Meaning.enablement, Meaning.enablement]
  dsimp only
  rw [hend, hafter.options]
  refine ⟨rfl, ?_⟩
  split
  · exact hafter.record rfl (.same _)
  · exact hafter

/-- What is asked under scopes that rebind the default variable to equal values. -/
theorem under (h : Parallel m m') {c c' : Context} (hc : c.EqualAnswers c') {s s' : Scope}
    (hs : s.Plain) (hs' : s'.Plain) (hv : (s.defaultVariable == s'.defaultVariable) = true) :
    Act.Parallel (m (s :: c)) (m' (s' :: c')) :=
  h _ _ (hc.push hs hs' hv)

theorem withVariable (h : Parallel m m') (name : String) :
    Parallel (.withVariable name m) (.withVariable name m') := by
  intro c c' hc
  have hbinding := hc.binding name
  rw [Meaning.withVariable, Meaning.withVariable]
  generalize Context.binding? name c = v at hbinding ⊢
  generalize Context.binding? name c' = w at hbinding ⊢
  cases v with
  | none =>
    cases w with
    | none => exact .fail _
    | some w => cases hbinding
  | some v =>
    cases w with
    | none => cases hbinding
    | some w =>
      dsimp only
      rw [← Value.isUndefined_congr hbinding]
      exact .ite (.pure _) (h.under hc (Context.plain_frame v) (Context.plain_frame w) hbinding)

theorem resolve (h : Parallel m m') (name : String) {args args' : List Value}
    (hargs : Value.sameItems args args' = true) :
    Parallel (.resolve name args m) (.resolve name args' m') := by
  intro c c' hc
  have hanswer := hc.answer name args args' hargs
  rw [Meaning.resolve, Meaning.resolve]
  generalize Context.resolve name args c = a at hanswer ⊢
  generalize Context.resolve name args' c' = b at hanswer ⊢
  cases hanswer with
  | error fault => exact .fail fault
  | @ok v w hvw =>
    cases v with
    | none =>
      cases w with
      | none => exact .fail _
      | some w => cases hvw
    | some v =>
      cases w with
      | none => cases hvw
      | some w => exact h.under hc (Context.plain_frame v) (Context.plain_frame w) hvw

theorem adapt (h : Parallel m m') (target : String) :
    Parallel (.adapt target m) (.adapt target m') := by
  intro c c' hc
  have hv := hc.defaultVariable
  refine .platform fun p hp => ?_
  have hadapted := hp.adapt? hv target
  rw [← p.isInstance_congr_value hv, ← p.hasAdapter_congr_value hv,
    ← p.adapterStatus_congr_value hv]
  refine .ite (h.under hc (Context.plain_rebound _) (Context.plain_rebound _) hv)
    (.ite (.pure _) ?_)
  generalize p.adapt? (Context.defaultVariable c) target = v at hadapted ⊢
  generalize p.adapt? (Context.defaultVariable c') target = w at hadapted ⊢
  cases v with
  | none =>
    cases w with
    | none => exact .pure _
    | some w => cases hadapted
  | some v =>
    cases w with
    | none => cases hadapted
    | some w => exact h.under hc (Context.plain_rebound v) (Context.plain_rebound w) hadapted

theorem count (mode : CountMode) : Parallel (.count mode) (.count mode) := by
  intro c c' hc
  refine .platform fun p hp => ?_
  have hsize := collection_sameEnd hp (fun _ _ => Value.count?_congr) hc.defaultVariable
    Platform.countableType
  refine Act.Parallel.ofExcept hsize fun a b hab => ?_
  cases hab with
  | none => exact .pure _
  | some hab =>
    cases hab
    exact .pure _

/-- Equal elements are asked about one after another. -/
theorem stepActs (h : Parallel m m') {c c' : Context} (hc : c.EqualAnswers c') {vs ws : List Value}
    (hitems : Value.sameItems vs ws = true) :
    List.Forall₂ Act.Parallel (Meaning.stepActs m c vs) (Meaning.stepActs m' c' ws) := by
  have hsame := Value.sameItems_iff.1 hitems
  clear hitems
  induction hsame with
  | nil => exact .nil
  | @cons v w vs ws hvw _ ih =>
    exact .cons (h.under hc (Context.plain_stepping v vs) (Context.plain_stepping w ws) hvw) ih

theorem iterate (h : Parallel m m') (o : Connective) (ifEmpty : Option Bool) :
    Parallel (.iterate o ifEmpty m) (.iterate o ifEmpty m') := by
  intro c c' hc
  refine .platform fun p hp => ?_
  have helements := collection_sameEnd hp (fun _ _ => Value.elements?_congr) hc.defaultVariable
    Platform.iterableType
  refine Act.Parallel.ofExcept helements fun a b hab => ?_
  cases hab with
  | none => exact .pure _
  | @some vs ws hitems =>
    have hsteps := stepActs h hc hitems
    -- both have none, one or more elements
    cases Value.sameItems_iff.1 hitems with
    | nil => exact .pure _
    | @cons v w vs ws hvw hrest =>
      cases hrest with
      | nil => exact h.under hc (Context.plain_rebound v) (Context.plain_rebound w) hvw
      | cons _ _ =>
        dsimp only
        rw [steps_eq_joinUntil, steps_eq_joinUntil]
        exact .joinUntil hsteps o _

theorem instanceOf (t : String) : Parallel (.instanceOf t) (.instanceOf t) := by
  intro c c' hc
  refine .platform fun p _ => ?_
  rw [p.isInstance_congr_value hc.defaultVariable]
  exact .pure _

/-! ## Questions -/

/-- A question to the platform goes by the text of its first argument. -/
theorem platformTest_congr {q q' : PropertyTest} (h : q.same q' = true) :
    Meaning.platformTest q = Meaning.platformTest q' := by
  obtain ⟨-, hproperty, -, -, hargs⟩ := PropertyTest.same_iff.1 h
  rw [Meaning.platformTest, Meaning.platformTest, hproperty]
  congr 1
  funext actual
  generalize q.args = args at hargs ⊢
  generalize q'.args = args' at hargs ⊢
  cases actual with
  | none => rfl
  | some actual =>
    cases Value.sameItems_iff.1 hargs with
    | nil => rfl
    | cons hv _ =>
      cases Value.sameKind_of_same hv with
      | string x y => rw [(beq_iff_eq.1 hv : x = y)]
      | _ => rfl

theorem platformTest (q : PropertyTest) :
    Act.Parallel (Meaning.platformTest q) (Meaning.platformTest q) := by
  refine .of_unseeing (fun earlier => ?_) (.platformTest q)
  refine Act.Unseeing.bind (.read fun _ _ => rfl) fun v => ?_
  split
  · exact .pure _
  · exact .pure _

/-- Testers are asked about equal values, and answer alike. -/
theorem ask {r : Resolved} (hr : Engine.HoldsOf Tester.Respectful r.handle) {v w : Value}
    {args args' : List Value} {expected expected' : Option Value} (hv : (v == w) = true)
    (hargs : Value.sameItems args args' = true) (hexpected : (expected == expected') = true) :
    Act.Parallel (Engine.ask r v args expected) (Engine.ask r w args' expected') := by
  rw [Engine.ask, Engine.ask]
  cases ho : r.handle.object with
  | none => exact .fail _
  | some o =>
    dsimp only
    have hresult := hr o ho r.key.name v w args args' expected expected' hv hargs hexpected
    rw [← hresult]
    intro e e' htwins
    exact ⟨rfl, htwins.record rfl (.asked _ _ _ hv hargs hexpected)⟩

theorem test {q q' : PropertyTest} (h : q.same q' = true) : Parallel (.test q) (.test q') := by
  intro c c' hc
  obtain ⟨hnamespace, hproperty, hforce, hexpected, hargs⟩ := PropertyTest.same_iff.1 h
  have hv := hc.defaultVariable
  have hplatform : (Context.defaultVariable c == .type Platform.platformType) =
      (Context.defaultVariable c' == .type Platform.platformType) := BEq.congr_left hv
  rw [Meaning.test, Meaning.test]
  dsimp only
  rw [← hplatform, ← Engine.resolve_congr hv, ← hnamespace, ← hproperty, ← hforce,
    ← hc.allowActivation]
  rw [← platformTest_congr h]
  refine .ite (platformTest q) ?_
  refine Act.Parallel.bind_of_results (.of_unseeing
    (fun earlier => (Engine.aside_behind earlier).unseeing_resolve _ _ _ _)
    (Engine.steady_respectful.resolve _ _ _ _)) fun e r he hr => ?_
  refine .ite ?_ (.pure _)
  exact (ask (he.testers.resolve hr) hv hargs hexpected).bind fun b => .pure _

theorem fixed (label label' : Option String) (outcome : String) :
    Parallel (.fixed label outcome) (.fixed label' outcome) := by
  intro c c' hc
  refine Act.Parallel.bind (fun e e' htwins => ?_) fun _ => ?_
  · exact ⟨rfl, htwins.record rfl (.fixed label label' outcome hc.defaultVariable)⟩
  · split
    · exact .pure _
    · exact .fail _

theorem systemTest (property value : String) :
    Parallel (.systemTest property value) (.systemTest property value) := by
  intro c c' _
  refine .of_unseeing (fun earlier => ?_) (.systemTest property value c)
  refine Act.Unseeing.bind (.read fun _ _ => rfl) fun actual => ?_
  split
  · exact .pure _
  · exact .pure _

end Parallel

end Meaning

namespace Expr

variable {a b : Expr} {link : String → Meaning}

/-- **Equal expressions are parallel**, if references are. -/
theorem meaning_parallel (hlink : ∀ id, (link id).Parallel (link id)) (h : same a b = true) :
    (a.meaning link).Parallel (b.meaning link) := by
  induction a using inductionOn generalizing b with
  | step a ih =>
  obtain ⟨hmatches, hall⟩ := same_iff.1 h
  have hchildren : ∀ {cs ds : List Expr}, cs = a.children → ds = b.children →
      List.Forall₂ Meaning.Parallel (meanings link cs) (meanings link ds) := by
    rintro _ _ rfl rfl
    rw [meanings_eq_map, meanings_eq_map, List.forall₂_map_left_iff, List.forall₂_map_right_iff]
    exact forall₂_of_sameAll (fun x hx y hxy => ih x hx hxy) hall
  cases hmatches with
  | and cs ds => exact .all (hchildren rfl rfl)
  | or cs ds => exact .any (hchildren rfl rfl)
  | not x y =>
    intro c c' hc
    have hxy := ih x List.mem_cons_self (Bool.and_eq_true_iff.1 hall).1 c c' hc
    exact hxy.bind fun _ => .pure _
  | enablement cs ds => exact (Meaning.Parallel.all (hchildren rfl rfl)).enablement
  | withVariable name cs ds => exact (Meaning.Parallel.all (hchildren rfl rfl)).withVariable name
  | resolve name hargs cs ds =>
    exact (Meaning.Parallel.all (hchildren rfl rfl)).resolve name hargs
  | adapt target cs ds => exact (Meaning.Parallel.all (hchildren rfl rfl)).adapt target
  | iterate o ifEmpty cs ds => exact (Meaning.Parallel.all (hchildren rfl rfl)).iterate o ifEmpty
  | count mode => exact .count mode
  | @equals v w hvw =>
    intro c c' hc
    have hequal : (v == Context.defaultVariable c) = (w == Context.defaultVariable c') :=
      (BEq.congr_left hvw).trans (BEq.congr_right hc.defaultVariable)
    simp only [meaning, hequal]
    exact .pure _
  | systemTest property value => exact .systemTest property value
  | test hq => exact .test hq
  | reference id linked linked' => exact hlink id
  | instanceOf t => exact .instanceOf t
  | constant value => exact fun _ _ _ => .pure _
  | fixed label label' outcome => exact .fixed label label' outcome
  | group o cs ds =>
    cases o with
    | and => exact .all (hchildren rfl rfl)
    | or => exact .any (hchildren rfl rfl)

end Expr

namespace Engine

/-- References are parallel to themselves, however deep definitions may be entered. -/
theorem linkWithin_parallel (depth : Nat) (id : String) :
    (linkWithin depth id).Parallel (linkWithin depth id) := by
  induction depth generalizing id with
  | zero => exact fun _ _ _ => .fail _
  | succ depth ih =>
    intro c c' hc
    refine Act.Parallel.bind (.of_unseeing
      (fun earlier => (aside_behind earlier).unseeing_definition id)
      (steady_respectful.definition id)) fun x => ?_
    exact Expr.meaning_parallel ih x.same_self c c' hc

/-- **Equal expressions evaluate in parallel** in contexts that give equal answers. -/
theorem evaluate_parallel {a b : Expr} (h : a.same b = true) :
    Meaning.Parallel (evaluate a) (evaluate b) := by
  intro c c' hc e e' htwins
  have hdepth : e'.referenceDepth = e.referenceDepth := by
    rw [referenceDepth, referenceDepth, htwins.definitions]
  rw [evaluate, evaluate, hdepth]
  exact Expr.meaning_parallel (linkWithin_parallel _) h c c' hc e e' htwins

end Engine

end Enablement
