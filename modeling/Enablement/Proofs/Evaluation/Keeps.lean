import Enablement.Proofs.Evaluation.Joining
/-!
# Evaluation — what it keeps

Evaluation changes the engine in three ways only: it looks properties up, it asks for definitions,
and it records events of its own. A property of engines that these keep is kept by the evaluation of
every expression in every context (`Engine.evaluate_keeps`). What is kept in some contexts only is
kept by an expression if evaluation does not leave these contexts (`Context.Rebinding`).
-/

namespace Enablement

/-- An event of the evaluation itself: a question to a tester, a leaf of the host, or a log line. -/
def Event.isRemark : Event → Bool
  | .asked _ => true
  | .fixed _ _ _ => true
  | .noted _ => true
  | _ => false

/-- A property of engines that lookups, definitions and events of the evaluation itself keep. -/
structure Steady (P : Engine → Prop) : Prop where
  record : ∀ e ev, ev.isRemark = true → P e → P (e.record ev)
  resolve : ∀ receiver namespaceName property force,
    Act.Keeps P (Engine.resolve receiver namespaceName property force)
  definition : ∀ id, Act.Keeps P (Engine.definition id)

/-- They keep two properties together if they keep each of them. -/
theorem Steady.and {P Q : Engine → Prop} (hP : Steady P) (hQ : Steady Q) :
    Steady fun e => P e ∧ Q e where
  record e ev hev he := ⟨hP.record e ev hev he.1, hQ.record e ev hev he.2⟩
  resolve receiver namespaceName property force e he :=
    ⟨hP.resolve receiver namespaceName property force e he.1,
      hQ.resolve receiver namespaceName property force e he.2⟩
  definition id e he := ⟨hP.definition id e he.1, hQ.definition id e he.2⟩

variable {P : Engine → Prop}

/-! ## One meaning in one context -/

namespace Act.Keeps

/-- Acts that keep a property keep it one after another. -/
theorem joinUntil {xs : List (Act Truth)} (h : ∀ x ∈ xs, Keeps P x) (o : Connective) (t : Truth) :
    Keeps P (Act.joinUntil o t xs) := by
  induction xs generalizing t with
  | nil => exact .pure t
  | cons x xs ih =>
    obtain ⟨hx, hxs⟩ := List.forall_mem_cons.1 h
    exact hx.bind fun a => .ite (.pure _) (ih hxs _)

variable {m : Meaning} {ms : List Meaning} {ctx : Context}

theorem all (h : ∀ m ∈ ms, Keeps P (m ctx)) : Keeps P (Meaning.all ms ctx) := by
  rw [Meaning.all, Act.allOf_eq_joinUntil]
  exact joinUntil (List.forall_mem_map.2 h) .and .yes

theorem any (h : ∀ m ∈ ms, Keeps P (m ctx)) : Keeps P (Meaning.any ms ctx) := by
  rw [Meaning.any, Act.anyOf_eq_joinUntil]
  exact .ite (.pure _) (joinUntil (List.forall_mem_map.2 h) .or .no)

/-- A question about a variable is asked in a frame with its value. -/
theorem withVariable (h : ∀ v, Keeps P (m (.frame { defaultVariable := v } :: ctx)))
    (name : String) : Keeps P (Meaning.withVariable name m ctx) := by
  rw [Meaning.withVariable]
  split
  · exact .fail _
  · exact .ite (.pure _) (h _)

theorem resolve (h : ∀ v, Keeps P (m (.frame { defaultVariable := v } :: ctx))) (name : String)
    (args : List Value) : Keeps P (Meaning.resolve name args m ctx) := by
  rw [Meaning.resolve]
  split
  · exact .fail _
  · exact .fail _
  · exact h _

theorem adapt (h : ∀ v, Keeps P (m (.rebound v :: ctx))) (target : String) :
    Keeps P (Meaning.adapt target m ctx) := by
  refine (Keeps.read _).bind fun p => .ite (h _) (.ite (.pure _) ?_)
  split
  · exact h _
  · exact .pure _

theorem count (mode : CountMode) (ctx : Context) : Keeps P (Meaning.count mode ctx) := by
  refine (Keeps.read _).bind fun p => (Keeps.ofExcept _).bind fun n => ?_
  split
  · exact .pure _
  · exact .pure _

/-- Asking one element after another keeps what asking each of them keeps. -/
theorem steps (h : ∀ v rest, Keeps P (m (.stepping v rest :: ctx))) (connective : Connective)
    (t : Truth) (vs : List Value) : Keeps P (Meaning.steps connective m ctx t vs) := by
  rw [Meaning.steps_eq_joinUntil]
  refine joinUntil (fun x hx => ?_) connective t
  obtain ⟨v, rest, rfl⟩ := Meaning.exists_of_mem_stepActs hx
  exact h v rest

theorem iterate (hone : ∀ v, Keeps P (m (.rebound v :: ctx)))
    (hstep : ∀ v rest, Keeps P (m (.stepping v rest :: ctx))) (connective : Connective)
    (ifEmpty : Option Bool) : Keeps P (Meaning.iterate connective ifEmpty m ctx) := by
  refine (Keeps.read _).bind fun p => (Keeps.ofExcept _).bind fun vs => ?_
  split
  · exact .pure _
  · exact .pure _
  · exact hone _
  · exact steps hstep _ _ _

theorem systemTest (property value : String) (ctx : Context) :
    Keeps P (Meaning.systemTest property value ctx) := by
  refine (Keeps.read _).bind fun v => ?_
  split
  · exact .pure _
  · exact .pure _

/-- A question to the platform reads its properties only. -/
theorem platformTest (q : PropertyTest) : Keeps P (Meaning.platformTest q) := by
  refine (Keeps.read _).bind fun v => ?_
  split
  · exact .pure _
  · exact .pure _

/-- Asking a tester leaves an entry in the journal. -/
theorem ask (hrecord : ∀ e ev, ev.isRemark = true → P e → P (e.record ev)) (r : Resolved)
    (receiver : Value) (args : List Value) (expected : Option Value) :
    Keeps P (Engine.ask r receiver args expected) := by
  rw [Engine.ask]
  split
  · exact .fail _
  · exact (Keeps.change fun e he => hrecord e _ rfl he).bind fun _ => .pure _

/-- A question to a tester keeps what its lookup keeps. -/
theorem test (hrecord : ∀ e ev, ev.isRemark = true → P e → P (e.record ev)) {q : PropertyTest}
    {ctx : Context}
    (hresolve : Keeps P (Engine.resolve (Context.defaultVariable ctx) q.namespaceName q.property
      (Context.allowActivation ctx && q.force))) : Keeps P (Meaning.test q ctx) := by
  refine .ite (platformTest q) (hresolve.bind fun r => .ite ?_ (.pure _))
  exact (ask hrecord r _ _ _).bind fun b => .pure _

theorem instanceOf (t : String) (ctx : Context) : Keeps P (Meaning.instanceOf t ctx) :=
  (Keeps.read _).bind fun _ => .pure _

/-- The outcome of a condition leaves a log line at most. -/
theorem enablement (hnote : ∀ e n, P e → P (e.note n)) (h : Keeps P (m ctx)) :
    Keeps P (Meaning.enablement m ctx) := by
  intro e he
  have hm := h e he
  rw [Meaning.enablement]
  rcases hrun : m ctx e with ⟨r, e'⟩
  rw [hrun] at hm
  dsimp only
  split
  · exact hnote e' _ hm
  · exact hm

theorem fixed (hrecord : ∀ e ev, ev.isRemark = true → P e → P (e.record ev))
    (label : Option String) (outcome : String) (ctx : Context) :
    Keeps P (Meaning.fixed label outcome ctx) := by
  refine (Keeps.change fun e he => hrecord e _ rfl he).bind fun _ => ?_
  split
  · exact .pure _
  · exact .fail _

end Act.Keeps

/-! ## In many contexts -/

/-- A set of contexts that evaluation does not leave: it only adds scopes that rebind the default
variable. -/
structure Context.Rebinding (C : Context → Prop) : Prop where
  frame : ∀ v ctx, C ctx → C (.frame { defaultVariable := v } :: ctx)
  rebound : ∀ v ctx, C ctx → C (.rebound v :: ctx)
  stepping : ∀ v rest ctx, C ctx → C (.stepping v rest :: ctx)

/-- It does not leave those in which contributors may be activated, nor those in which they may not.
-/
theorem Context.rebinding_allowActivation (allowed : Bool) :
    Context.Rebinding fun ctx => Context.allowActivation ctx = allowed :=
  ⟨fun _ _ h => h, fun _ _ h => h, fun _ _ _ h => h⟩

namespace Meaning

/-- A meaning keeps a property of engines in the contexts of a set. -/
def KeepsIn (C : Context → Prop) (P : Engine → Prop) (m : Meaning) : Prop :=
  ∀ ctx, C ctx → Act.Keeps P (m ctx)

/-- A meaning keeps a property of engines in every context. -/
def Keeps (P : Engine → Prop) (m : Meaning) : Prop := ∀ ctx, Act.Keeps P (m ctx)

variable {C : Context → Prop}

/-- Meanings that keep a property are closed under what expressions do, if log lines keep it. -/
theorem closed_keepsIn (hC : Context.Rebinding C) (hnote : ∀ e n, P e → P (e.note n)) :
    Closed (KeepsIn C P) where
  all h ctx hctx := .all fun m hm => h m hm ctx hctx
  any h ctx hctx := .any fun m hm => h m hm ctx hctx
  not h ctx hctx := (h ctx hctx).bind fun _ => .pure _
  enablement h ctx hctx := .enablement hnote (h ctx hctx)
  withVariable h name ctx hctx := .withVariable (fun v => h _ (hC.frame v ctx hctx)) name
  resolve h name args ctx hctx := .resolve (fun v => h _ (hC.frame v ctx hctx)) name args
  adapt h target ctx hctx := .adapt (fun v => h _ (hC.rebound v ctx hctx)) target
  iterate h o ifEmpty ctx hctx := .iterate (fun v => h _ (hC.rebound v ctx hctx))
    (fun v rest => h _ (hC.stepping v rest ctx hctx)) o ifEmpty
  count mode ctx _ := .count mode ctx
  instanceOf t ctx _ := .instanceOf t ctx
  answer _ _ _ := .pure _

end Meaning

/-! ## Expressions -/

namespace Expr

/-- **What the leaves and log lines keep, an expression keeps.** Of the leaves, only questions to
testers, references and the leaves of the host do more than read. -/
theorem meaning_keepsIn_of_leaves {C : Context → Prop} (hC : Context.Rebinding C)
    {link : String → Meaning} (hnote : ∀ e n, P e → P (e.note n))
    (x : Expr) (htest : ∀ q, .test q ∈ x.leaves → Meaning.KeepsIn C P (.test q))
    (hlink : ∀ id linked, .reference id linked ∈ x.leaves → Meaning.KeepsIn C P (link id))
    (hfixed : ∀ label outcome, .fixed label outcome ∈ x.leaves →
      Meaning.KeepsIn C P (.fixed label outcome)) : Meaning.KeepsIn C P (x.meaning link) :=
  x.meaning_of_closed (Meaning.closed_keepsIn hC hnote)
    (fun property value _ ctx _ => .systemTest property value ctx) htest hlink hfixed

/-- So it does in every context. -/
theorem meaning_keeps_of_leaves {link : String → Meaning} (hnote : ∀ e n, P e → P (e.note n))
    (x : Expr) (htest : ∀ q, .test q ∈ x.leaves → Meaning.Keeps P (.test q))
    (hlink : ∀ id linked, .reference id linked ∈ x.leaves → Meaning.Keeps P (link id))
    (hfixed : ∀ label outcome, .fixed label outcome ∈ x.leaves →
      Meaning.Keeps P (.fixed label outcome)) : Meaning.Keeps P (x.meaning link) := by
  have hC : Context.Rebinding fun _ => True :=
    ⟨fun _ _ h => h, fun _ _ h => h, fun _ _ _ h => h⟩
  have h := x.meaning_keepsIn_of_leaves hC hnote (fun q hq ctx _ => htest q hq ctx)
    (fun id linked hid ctx _ => hlink id linked hid ctx)
    fun label outcome hf ctx _ => hfixed label outcome hf ctx
  exact fun ctx => h ctx trivial

/-- **What lookups, definitions and events keep, expressions keep**, if their references do. -/
theorem meaning_keeps (hP : Steady P) {link : String → Meaning}
    (hlink : ∀ id, Meaning.Keeps P (link id)) (x : Expr) : Meaning.Keeps P (x.meaning link) :=
  x.meaning_keeps_of_leaves (fun e n => hP.record e (.noted n) rfl)
    (fun _ _ _ => .test hP.record (hP.resolve _ _ _ _)) (fun id _ _ => hlink id)
    fun label outcome _ => .fixed hP.record label outcome

end Expr

namespace Engine

/-- References keep it, however deep definitions may be entered. -/
theorem linkWithin_keeps (hP : Steady P) (depth : Nat) (id : String) :
    Meaning.Keeps P (linkWithin depth id) := by
  induction depth generalizing id with
  | zero => exact fun _ => .fail _
  | succ depth ih => exact fun ctx => (hP.definition id).bind fun x => x.meaning_keeps hP ih ctx

/-- **Evaluation keeps what lookups, definitions and events keep.** -/
theorem evaluate_keeps (hP : Steady P) (x : Expr) : Meaning.Keeps P (evaluate x) :=
  fun ctx e => x.meaning_keeps hP (linkWithin_keeps hP _) ctx e

end Engine

end Enablement
