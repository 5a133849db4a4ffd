import Enablement.Proofs.Evaluation.Keeps
import Enablement.Proofs.Expr.Replacing
/-!
# Evaluation — two runs side by side

Two runs go abreast when from engines that are alike they end alike and leave such engines behind
(`Act.Abreast`). What engines have in common may be anything that evaluation reads off them by
itself and that lasts while it records events (`Likeness`). Every way of putting meanings together
then passes it on from the parts to the whole, so a node means the same over children that do
(`Expr.abreast_withChildren`), and an expression means the same if its questions to testers and its
references do (`Expr.meaningBy_abreast`).
-/

namespace Enablement

variable {R : Engine → Engine → Prop} {P : Engine → Prop}

/-- A way in which engines are alike: they have the same host and options, and stay alike when
evaluation records the same event in both. -/
structure Likeness (R : Engine → Engine → Prop) : Prop where
  platform : ∀ e e', R e e' → e'.platform = e.platform
  options : ∀ e e', R e e' → e'.options = e.options
  record : ∀ e e' ev, ev.isRemark = true → R e e' → R (e.record ev) (e'.record ev)

/-- Being the same engine with a property that evaluation keeps. -/
theorem Steady.likeness (hP : Steady P) : Likeness fun e e' => e' = e ∧ P e where
  platform _ _ h := h.1 ▸ rfl
  options _ _ h := h.1 ▸ rfl
  record e _ ev hev h := ⟨h.1 ▸ rfl, hP.record e ev hev h.2⟩

/-! ## Acts -/

namespace Act

variable {α β : Type} {x y : Act α} {f g : α → Act β}

/-- From engines that are alike, two acts end alike and leave such engines behind. -/
def Abreast (R : Engine → Engine → Prop) (x y : Act α) : Prop :=
  ∀ e e', R e e' → (x e).1 = (y e').1 ∧ R (x e).2 (y e').2

/-- Acts that do the same wherever a property holds, and keep it. -/
theorem SameOn.abreast (hxy : SameOn P x y) (hx : Keeps P x) :
    Abreast (fun e e' => e' = e ∧ P e) x y := by
  rintro e e' ⟨hsame, he⟩
  rw [hsame, ← hxy e he]
  exact ⟨rfl, rfl, hx e he⟩

/-- Going abreast from one engine, they do the same there. -/
theorem Abreast.eq (h : Abreast (fun e e' => e' = e ∧ P e) x y) {e : Engine} (he : P e) :
    x e = y e := by
  obtain ⟨hend, hleft, -⟩ := h e e ⟨rfl, he⟩
  exact Prod.ext hend hleft.symm

namespace Abreast

theorem pure (a : α) : Abreast R (Pure.pure a : Act α) (Pure.pure a) := fun _ _ h => ⟨rfl, h⟩

theorem fail (f : Fault) : Abreast R (Act.fail f : Act α) (Act.fail f) := fun _ _ h => ⟨rfl, h⟩

theorem ofExcept (r : Except Fault α) : Abreast R (Act.ofExcept r) (Act.ofExcept r) :=
  fun _ _ h => ⟨rfl, h⟩

/-- Acts go on abreast with what the first ones can end with. -/
theorem bind_of_results (hxy : Abreast R x y)
    (hfg : ∀ e e' a, R e e' → (x e).1 = .ok a → Abreast R (f a) (g a)) :
    Abreast R (x >>= f) (y >>= g) := by
  intro e e' h
  obtain ⟨hend, hleft⟩ := hxy e e' h
  have hnext := fun a => hfg e e' a h
  rw [bind_apply, bind_apply]
  rcases hx : x e with ⟨r, d⟩
  rcases hy : y e' with ⟨r', d'⟩
  rw [hx, hy] at hend hleft
  rw [hx] at hnext
  cases hend
  cases r with
  | error fault => exact ⟨rfl, hleft⟩
  | ok a => exact hnext a rfl d d' hleft

theorem bind (hxy : Abreast R x y) (hfg : ∀ a, Abreast R (f a) (g a)) :
    Abreast R (x >>= f) (y >>= g) :=
  hxy.bind_of_results fun _ _ a _ _ => hfg a

theorem ite {p : Prop} [Decidable p] {x' y' : Act α} (h : Abreast R x y) (h' : Abreast R x' y') :
    Abreast R (if p then x else x') (if p then y else y') := by
  split
  · exact h
  · exact h'

/-- What is read off both engines may be anything that is the same in both. -/
theorem read {f : Engine → α} (h : ∀ e e', R e e' → f e' = f e) :
    Abreast R (Act.read f) (Act.read f) := by
  intro e e' hee'
  rw [read_apply, read_apply, h e e' hee']
  exact ⟨rfl, hee'⟩

/-- The same event is recorded in both. -/
theorem record (hR : Likeness R) {ev : Event} (hev : ev.isRemark = true) :
    Abreast R (Act.change (·.record ev)) (Act.change (·.record ev)) :=
  fun e e' h => ⟨rfl, hR.record e e' ev hev h⟩

theorem joinUntil {xs ys : List (Act Truth)} (h : List.Forall₂ (Abreast R) xs ys) (o : Connective)
    (t : Truth) : Abreast R (Act.joinUntil o t xs) (Act.joinUntil o t ys) := by
  induction h generalizing t with
  | nil => exact .pure t
  | cons hxy _ ih => exact hxy.bind fun a => .ite (.pure _) (ih _)

end Abreast

end Act

/-! ## Meanings -/

namespace Meaning

/-- Two meanings go abreast in every context. -/
def Abreast (R : Engine → Engine → Prop) (m m' : Meaning) : Prop :=
  ∀ ctx, Act.Abreast R (m ctx) (m' ctx)

namespace Abreast

variable {m m' : Meaning} {ms ms' : List Meaning}

theorem map_acts (h : List.Forall₂ (Abreast R) ms ms') (ctx : Context) :
    List.Forall₂ (Act.Abreast R) (ms.map (· ctx)) (ms'.map (· ctx)) := by
  rw [List.forall₂_map_left_iff, List.forall₂_map_right_iff]
  exact h.imp fun m m' hm => hm ctx

theorem all (h : List.Forall₂ (Abreast R) ms ms') : Abreast R (.all ms) (.all ms') := by
  intro ctx
  rw [Meaning.all, Meaning.all, Act.allOf_eq_joinUntil, Act.allOf_eq_joinUntil]
  exact .joinUntil (map_acts h ctx) .and .yes

theorem any (h : List.Forall₂ (Abreast R) ms ms') : Abreast R (.any ms) (.any ms') := by
  intro ctx
  have hempty : ms.isEmpty = ms'.isEmpty := by cases h <;> rfl
  rw [Meaning.any, Meaning.any, Act.anyOf_eq_joinUntil, Act.anyOf_eq_joinUntil, hempty]
  exact .ite (.pure _) (.joinUntil (map_acts h ctx) .or .no)

theorem not (h : Abreast R m m') :
    Abreast R (fun ctx => do return (← m ctx).not) fun ctx => do return (← m' ctx).not :=
  fun ctx => (h ctx).bind fun _ => .pure _

/-- The outcome leaves the same log line in both, or none in either. -/
theorem enablement (hR : Likeness R) (h : Abreast R m m') :
    Abreast R (.enablement m) (.enablement m') := by
  intro ctx e e' hee'
  obtain ⟨hend, hleft⟩ := h ctx e e' hee'
  rw [Meaning.enablement, Meaning.enablement]
  dsimp only
  rw [hend, hR.options _ _ hleft]
  refine ⟨rfl, ?_⟩
  split
  · exact hR.record _ _ _ rfl hleft
  · exact hleft

theorem withVariable (h : Abreast R m m') (name : String) :
    Abreast R (.withVariable name m) (.withVariable name m') := by
  intro ctx
  rw [Meaning.withVariable, Meaning.withVariable]
  cases Context.binding? name ctx with
  | none => exact .fail _
  | some v => exact .ite (.pure _) (h _)

theorem resolve (h : Abreast R m m') (name : String) (args : List Value) :
    Abreast R (.resolve name args m) (.resolve name args m') := by
  intro ctx
  rw [Meaning.resolve, Meaning.resolve]
  rcases Context.resolve name args ctx with f | _ | v
  · exact .fail _
  · exact .fail _
  · exact h _

theorem adapt (hR : Likeness R) (h : Abreast R m m') (target : String) :
    Abreast R (.adapt target m) (.adapt target m') := by
  refine fun ctx => (Act.Abreast.read hR.platform).bind fun p => .ite (h _) (.ite (.pure _) ?_)
  cases p.adapt? (Context.defaultVariable ctx) target with
  | some w => exact h _
  | none => exact .pure _

theorem count (hR : Likeness R) (mode : CountMode) : Abreast R (.count mode) (.count mode) := by
  refine fun ctx => (Act.Abreast.read hR.platform).bind fun p => (Act.Abreast.ofExcept _).bind
    fun n => ?_
  cases n with
  | none => exact .pure _
  | some n => exact .pure _

/-- The body is asked about the same elements, one after another. -/
theorem iterate (hR : Likeness R) (h : Abreast R m m') (o : Connective) (ifEmpty : Option Bool) :
    Abreast R (.iterate o ifEmpty m) (.iterate o ifEmpty m') := by
  refine fun ctx => (Act.Abreast.read hR.platform).bind fun p => (Act.Abreast.ofExcept _).bind
    fun vs => ?_
  rcases vs with _ | _ | ⟨v, _ | ⟨w, rest⟩⟩
  · exact .pure _
  · exact .pure _
  · exact h _
  · dsimp only
    rw [steps_eq_joinUntil, steps_eq_joinUntil]
    exact .joinUntil (forall₂_stepActs (fun v rest => h _) _) o _

theorem systemTest (hR : Likeness R) (property value : String) :
    Abreast R (.systemTest property value) (.systemTest property value) := by
  intro ctx
  refine (Act.Abreast.read fun e e' h => by rw [hR.platform e e' h]).bind fun actual => ?_
  split
  · exact .pure _
  · exact .pure _

theorem instanceOf (hR : Likeness R) (t : String) : Abreast R (.instanceOf t) (.instanceOf t) :=
  fun _ => (Act.Abreast.read hR.platform).bind fun _ => .pure _

theorem fixed (hR : Likeness R) (label : Option String) (outcome : String) :
    Abreast R (.fixed label outcome) (.fixed label outcome) := by
  refine fun ctx => (Act.Abreast.record hR rfl).bind fun _ => ?_
  split
  · exact .pure _
  · exact .fail _

end Abreast

/-! ## Questions to testers -/

/-- A question about the default variable, put to the tester that a way of looking it up finds. -/
def testBy (resolve : Value → String → String → Bool → Act Resolved) (q : PropertyTest) : Meaning :=
  fun ctx =>
    let v := Context.defaultVariable ctx
    if v == .type Platform.platformType then platformTest q
    else do
      let force := Context.allowActivation ctx && q.force
      let r ← resolve v q.namespaceName q.property force
      if r.handle.isInstantiated then return .ofBool (← Engine.ask r v q.args q.expected)
      else pure .notLoaded

/-- Questions are put to the tester that the registry finds. -/
theorem test_eq_testBy : test = testBy Engine.resolve := rfl

/-- **Questions go abreast if their lookups do.** -/
theorem testBy_abreast (hR : Likeness R)
    {find find' : Value → String → String → Bool → Act Resolved}
    (h : ∀ receiver namespaceName property force,
      (find receiver namespaceName property force).Abreast R
        (find' receiver namespaceName property force))
    (q : PropertyTest) : (testBy find q).Abreast R (testBy find' q) := by
  refine fun ctx => .ite ?_ ((h _ _ _ _).bind fun r => .ite ?_ (.pure _))
  · refine (Act.Abreast.read fun e e' h => by rw [hR.platform e e' h]).bind fun actual => ?_
    split
    · exact .pure _
    · exact .pure _
  · rw [Engine.ask]
    cases r.handle.object with
    | none => exact .fail _
    | some o => exact ((Act.Abreast.record hR rfl).bind fun _ => .pure _).bind fun _ => .pure _

end Meaning

/-! ## Expressions -/

namespace Expr

variable {test test' : PropertyTest → Meaning} {link link' : String → Meaning}

mutual

/-- The meaning of an expression, given those of its questions to testers and of its references. -/
def meaningBy (test : PropertyTest → Meaning) (link : String → Meaning) : Expr → Meaning
  | .and cs => .all (meaningsBy test link cs)
  | .or cs => .any (meaningsBy test link cs)
  | .not c => fun ctx => do return (← meaningBy test link c ctx).not
  | .enablement cs => .enablement (.all (meaningsBy test link cs))
  | .withVariable x cs => .withVariable x (.all (meaningsBy test link cs))
  | .resolve x args cs => .resolve x args (.all (meaningsBy test link cs))
  | .adapt t cs => .adapt t (.all (meaningsBy test link cs))
  | .iterate o ifEmpty cs => .iterate o ifEmpty (.all (meaningsBy test link cs))
  | .count mode => .count mode
  | .equals v => fun ctx => pure (.ofBool (v == Context.defaultVariable ctx))
  | .systemTest p v => .systemTest p v
  | .test q => test q
  | .reference id _ => link id
  | .instanceOf t => .instanceOf t
  | .constant b => fun _ => pure (.ofBool b)
  | .fixed label outcome => .fixed label outcome
  | .group .and cs => .all (meaningsBy test link cs)
  | .group .or cs => .any (meaningsBy test link cs)

def meaningsBy (test : PropertyTest → Meaning) (link : String → Meaning) : List Expr → List Meaning
  | [] => []
  | c :: cs => meaningBy test link c :: meaningsBy test link cs

end

theorem meaningsBy_eq_map (test : PropertyTest → Meaning) (link : String → Meaning)
    (cs : List Expr) : meaningsBy test link cs = cs.map (meaningBy test link) := by
  induction cs with
  | nil => rfl
  | cons c cs ih => rw [meaningsBy, ih, List.map_cons]

/-- The meaning of an expression is the one by lookups in the registry. -/
theorem meaning_eq_meaningBy (link : String → Meaning) (x : Expr) :
    x.meaning link = x.meaningBy Meaning.test link := by
  induction x using Expr.inductionOn with
  | step x ih =>
  have hall : meanings link x.children = meaningsBy Meaning.test link x.children := by
    rw [meanings_eq_map, meaningsBy_eq_map]
    exact List.map_congr_left ih
  cases x with
  | and cs => exact congrArg Meaning.all hall
  | or cs => exact congrArg Meaning.any hall
  | not c => rw [meaning, meaningBy, ih c List.mem_cons_self]
  | enablement cs => exact congrArg (fun ms => Meaning.enablement (.all ms)) hall
  | withVariable name cs => exact congrArg (fun ms => Meaning.withVariable name (.all ms)) hall
  | resolve name args cs => exact congrArg (fun ms => Meaning.resolve name args (.all ms)) hall
  | adapt target cs => exact congrArg (fun ms => Meaning.adapt target (.all ms)) hall
  | iterate o ifEmpty cs => exact congrArg (fun ms => Meaning.iterate o ifEmpty (.all ms)) hall
  | group o cs =>
    cases o with
    | and => exact congrArg Meaning.all hall
    | or => exact congrArg Meaning.any hall
  | _ => rfl

/-- **A node goes abreast with itself over children that do.** -/
theorem abreast_withChildren (hR : Likeness R) {x : Expr} {ds : List Expr}
    (hchildren : List.Forall₂
      (fun c d => (c.meaningBy test link).Abreast R (d.meaningBy test' link')) x.children ds)
    (htest : ∀ q, x = .test q → (test q).Abreast R (test' q))
    (hlink : ∀ id linked, x = .reference id linked → (link id).Abreast R (link' id)) :
    (x.meaningBy test link).Abreast R ((x.withChildren ds).meaningBy test' link') := by
  have hmap : ∀ {cs : List Expr}, List.Forall₂
      (fun c d => (c.meaningBy test link).Abreast R (d.meaningBy test' link')) cs ds →
      List.Forall₂ (Meaning.Abreast R) (meaningsBy test link cs) (meaningsBy test' link' ds) := by
    intro cs h
    rw [meaningsBy_eq_map, meaningsBy_eq_map, List.forall₂_map_left_iff,
      List.forall₂_map_right_iff]
    exact h
  cases x with
  | and cs => exact .all (hmap hchildren)
  | or cs => exact .any (hmap hchildren)
  | not c =>
    cases hchildren with
    | cons hcd _ => exact .not hcd
  | enablement cs => exact .enablement hR (.all (hmap hchildren))
  | withVariable name cs => exact .withVariable (.all (hmap hchildren)) name
  | resolve name args cs => exact .resolve (.all (hmap hchildren)) name args
  | adapt target cs => exact .adapt hR (.all (hmap hchildren)) target
  | iterate o ifEmpty cs => exact .iterate hR (.all (hmap hchildren)) o ifEmpty
  | count mode => exact .count hR mode
  | equals v => exact fun _ => .pure _
  | systemTest property value => exact .systemTest hR property value
  | test q => exact htest q rfl
  | reference id linked => exact hlink id linked rfl
  | instanceOf t => exact .instanceOf hR t
  | constant b => exact fun _ => .pure _
  | fixed label outcome => exact .fixed hR label outcome
  | group o cs =>
    cases o with
    | and => exact .all (hmap hchildren)
    | or => exact .any (hmap hchildren)

/-- **Two readings of an expression go abreast** if they do on questions to testers and on its
references. -/
theorem meaningBy_abreast (hR : Likeness R) (x : Expr)
    (htest : ∀ q, (test q).Abreast R (test' q))
    (hlink : ∀ id ∈ x.references, (link id).Abreast R (link' id)) :
    (x.meaningBy test link).Abreast R (x.meaningBy test' link') := by
  induction x using Expr.inductionOn with
  | step x ih =>
  have hchildren : List.Forall₂
      (fun c d => (c.meaningBy test link).Abreast R (d.meaningBy test' link')) x.children
      x.children :=
    List.forall₂_same.2 fun c hc => ih c hc fun id hid => hlink id
      (mem_references_of_mem_children hc hid)
  have hnode := abreast_withChildren hR hchildren (fun q _ => htest q) fun id linked hx =>
    hlink id (hx ▸ mem_references_reference id linked)
  rwa [withChildren_children] at hnode

end Expr

end Enablement
