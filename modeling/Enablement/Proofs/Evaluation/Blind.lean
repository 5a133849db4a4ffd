import Enablement.Proofs.Evaluation.Keeps
import Enablement.Proofs.Registry.Blind
import Enablement.Proofs.Registry.Hierarchy
/-!
# Evaluation — what it does not see

Evaluation adds to the journal and never reads it, and of the host's system properties it looks at
those only that it is asked about. So a change of the engine that concerns nothing else than these
passes through evaluation as it passes through lookups, question by question
(`Meaning.closed_blind`). In particular it does not matter what has been recorded before
(`Engine.evaluate_behind`).
-/

namespace Enablement

open Engine

/-- A change of the engine changes nothing about a meaning in any context, wherever a property of
engines holds that the meaning keeps. -/
structure Meaning.Blind (P : Engine → Prop) (σ : Engine → Engine) (m : Meaning) : Prop where
  keeps : m.Keeps P
  same : ∀ ctx, Act.Blind P σ (m ctx)

variable {P : Engine → Prop} {σ : Engine → Engine}

/-- Acts that are blind are so one after another. -/
theorem Act.Blind.joinUntil {xs : List (Act Truth)} (hk : ∀ x ∈ xs, Act.Keeps P x)
    (h : ∀ x ∈ xs, Act.Blind P σ x) (o : Connective) (t : Truth) :
    Act.Blind P σ (Act.joinUntil o t xs) := by
  induction xs generalizing t with
  | nil => exact .pure t
  | cons x xs ih =>
    obtain ⟨hkx, hkxs⟩ := List.forall_mem_cons.1 hk
    obtain ⟨hx, hxs⟩ := List.forall_mem_cons.1 h
    -- the first outcome is the same, so both runs stop here or go on
    exact hx.bind hkx fun a => .ite (.pure _) (ih hkxs hxs _)

namespace Meaning.Blind

variable {m : Meaning} {ms : List Meaning}

/-! ## Combining outcomes -/

theorem all (h : ∀ m ∈ ms, Blind P σ m) : Blind P σ (.all ms) := by
  refine ⟨fun ctx => .all fun m hm => (h m hm).keeps ctx, fun ctx => ?_⟩
  rw [Meaning.all, Act.allOf_eq_joinUntil]
  exact .joinUntil (List.forall_mem_map.2 fun m hm => (h m hm).keeps ctx)
    (List.forall_mem_map.2 fun m hm => (h m hm).same ctx) .and .yes

theorem any (h : ∀ m ∈ ms, Blind P σ m) : Blind P σ (.any ms) := by
  refine ⟨fun ctx => .any fun m hm => (h m hm).keeps ctx, fun ctx => ?_⟩
  rw [Meaning.any, Act.anyOf_eq_joinUntil]
  exact .ite (.pure _) (.joinUntil (List.forall_mem_map.2 fun m hm => (h m hm).keeps ctx)
    (List.forall_mem_map.2 fun m hm => (h m hm).same ctx) .or .no)

theorem not (h : Blind P σ m) : Blind P σ fun ctx => do return (← m ctx).not :=
  ⟨fun ctx => (h.keeps ctx).bind fun _ => .pure _,
    fun ctx => (h.same ctx).bind (h.keeps ctx) fun _ => .pure _⟩

theorem enablement (hσ : Aside σ) (hP : Steady P) (h : Blind P σ m) :
    Blind P σ (.enablement m) := by
  refine ⟨fun ctx => .enablement (fun e n => hP.record e (.noted n) rfl) (h.keeps ctx),
    fun ctx e he => ?_⟩
  rw [Meaning.enablement, Meaning.enablement, h.same ctx e he]
  dsimp only
  rw [hσ.options]
  split
  · rw [note, note, hσ.record]
  · rfl

/-! ## The questions -/

theorem withVariable (h : Blind P σ m) (name : String) : Blind P σ (.withVariable name m) := by
  refine ⟨fun ctx => .withVariable (fun _ => h.keeps _) name, fun ctx => ?_⟩
  rw [Meaning.withVariable]
  cases Context.binding? name ctx with
  | none => exact .fail _
  | some v => exact .ite (.pure _) (h.same _)

theorem resolve (h : Blind P σ m) (name : String) (args : List Value) :
    Blind P σ (.resolve name args m) := by
  refine ⟨fun ctx => .resolve (fun _ => h.keeps _) name args, fun ctx => ?_⟩
  rw [Meaning.resolve]
  rcases Context.resolve name args ctx with f | _ | v
  · exact .fail _
  · exact .fail _
  · exact h.same _

/-- Types and adapters are no system properties. -/
theorem adapt (hσ : Aside σ) (h : Blind P σ m) (target : String) : Blind P σ (.adapt target m) := by
  refine ⟨fun ctx => .adapt (fun _ => h.keeps _) target,
    fun ctx => .platform hσ (fun p properties => ?_) fun p => ?_⟩
  · have htypes : (p.withProperties properties).types = p.types := rfl
    rw [Platform.isInstance_congr htypes]
    rfl
  · refine .ite (h.same _) (.ite (.pure _) ?_)
    split
    · exact h.same _
    · exact .pure _

theorem count (hσ : Aside σ) (mode : CountMode) : Blind P σ (.count mode) := by
  refine ⟨.count mode, fun ctx => .platform hσ (fun _ _ => rfl) fun p => ?_⟩
  refine .bind (.ofExcept _) (.ofExcept _) fun n => ?_
  cases n with
  | none => exact .pure _
  | some n => exact .pure _

theorem iterate (hσ : Aside σ) (h : Blind P σ m) (o : Connective) (ifEmpty : Option Bool) :
    Blind P σ (.iterate o ifEmpty m) := by
  refine ⟨fun ctx => .iterate (fun _ => h.keeps _) (fun _ _ => h.keeps _) o ifEmpty,
    fun ctx => .platform hσ (fun _ _ => rfl) fun p => ?_⟩
  refine .bind (.ofExcept _) (.ofExcept _) fun vs => ?_
  rcases vs with _ | _ | ⟨v, _ | ⟨w, rest⟩⟩
  · exact .pure _
  · exact .pure _
  · exact h.same _
  · dsimp only
    rw [steps_eq_joinUntil]
    refine .joinUntil (fun x hx => ?_) (fun x hx => ?_) o _
    · obtain ⟨v, rest, rfl⟩ := exists_of_mem_stepActs hx
      exact h.keeps _
    · obtain ⟨v, rest, rfl⟩ := exists_of_mem_stepActs hx
      exact h.same _

/-- A system property is looked at by its name. -/
theorem systemTest {property : String} (value : String)
    (h : ∀ e, P e → (σ e).platform.property? property = e.platform.property? property) :
    Blind P σ (.systemTest property value) := by
  refine ⟨.systemTest property value, fun ctx => .bind (.read h) (.read _) fun v => ?_⟩
  split
  · exact .pure _
  · exact .pure _

/-- **A question to a tester** sees the system property of that name, if it is put to the platform
type, and no other. -/
theorem test (hσ : Aside σ) (hP : Steady P) {q : PropertyTest}
    (hq : ∀ e, P e → (σ e).platform.property? q.property = e.platform.property? q.property) :
    Blind P σ (.test q) := by
  refine ⟨fun _ => .test hP.record (hP.resolve _ _ _ _), fun ctx => .ite ?_ ?_⟩
  · refine .bind (.read hq) (.read _) fun v => ?_
    split
    · exact .pure _
    · exact .pure _
  · refine Act.Blind.bind (hσ.unseeing_resolve _ _ _ _).blind (hP.resolve _ _ _ _) fun r => ?_
    refine .ite ?_ (.pure _)
    exact Act.Blind.bind (hσ.unseeing_ask r _ _ _).blind (.ask hP.record r _ _ _) fun b => .pure _

theorem instanceOf (hσ : Aside σ) (t : String) : Blind P σ (.instanceOf t) := by
  refine ⟨.instanceOf t, fun ctx => .platform hσ (fun p properties => ?_) fun p => .pure _⟩
  have htypes : (p.withProperties properties).types = p.types := rfl
  rw [Platform.isInstance_congr htypes]

theorem fixed (hσ : Aside σ) (hP : Steady P) (label : Option String) (outcome : String) :
    Blind P σ (.fixed label outcome) := by
  refine ⟨.fixed hP.record label outcome, fun ctx => ?_⟩
  refine .bind (.change fun e => hσ.record e _) (.change fun e => hP.record e _ rfl) fun _ => ?_
  split
  · exact .pure _
  · exact .fail _

theorem answer (f : Context → Truth) : Blind P σ fun ctx => pure (f ctx) :=
  ⟨fun _ => .pure _, fun _ => .pure _⟩

end Meaning.Blind

/-- **Blind meanings are closed** under what expressions do. -/
theorem Meaning.closed_blind (hσ : Aside σ) (hP : Steady P) : Closed (Blind P σ) where
  all := .all
  any := .any
  not := .not
  enablement := .enablement hσ hP
  withVariable := .withVariable
  resolve := .resolve
  adapt := .adapt hσ
  iterate := .iterate hσ
  count := .count hσ
  instanceOf := .instanceOf hσ
  answer := .answer

/-! ## What has been recorded before -/

namespace Engine

/-- Any engine will do. -/
theorem steady_true : Steady fun _ => True :=
  ⟨fun _ _ _ _ => trivial, fun _ _ _ _ _ _ => trivial, fun _ _ _ => trivial⟩

variable (earlier : List Event)

/-- An expression does not see what has been recorded before, if its references do not. -/
theorem meaning_behind {link : String → Meaning}
    (hlink : ∀ id, (link id).Blind (fun _ => True) (·.behind earlier)) (x : Expr) :
    (x.meaning link).Blind (fun _ => True) (·.behind earlier) :=
  x.meaning_of_closed (Meaning.closed_blind (aside_behind earlier) steady_true)
    (fun _ value _ => .systemTest value fun _ _ => rfl)
    (fun _ _ => .test (aside_behind earlier) steady_true fun _ _ => rfl) (fun id _ _ => hlink id)
    fun label outcome _ => .fixed (aside_behind earlier) steady_true label outcome

/-- References do not, however deep definitions may be entered. -/
theorem linkWithin_behind (depth : Nat) (id : String) :
    (linkWithin depth id).Blind (fun _ => True) (·.behind earlier) := by
  induction depth generalizing id with
  | zero => exact ⟨fun _ => .fail _, fun _ => .fail _⟩
  | succ depth ih =>
    refine ⟨linkWithin_keeps steady_true _ id, fun ctx => ?_⟩
    refine ((aside_behind earlier).unseeing_definition id).bind fun x => ?_
    exact (meaning_behind earlier ih x).same ctx

/-- **What has been recorded before does not matter to an evaluation**, and stays as it is. -/
theorem evaluate_behind (x : Expr) (ctx : Context) (e : Engine) :
    evaluate x ctx (e.behind earlier) =
      ((evaluate x ctx e).1, (evaluate x ctx e).2.behind earlier) :=
  (meaning_behind earlier (linkWithin_behind earlier _) x).same ctx e trivial

/-- Nor does it matter to a lookup. -/
theorem resolve_behind (receiver : Value) (namespaceName property : String) (force : Bool)
    (e : Engine) :
    resolve receiver namespaceName property force (e.behind earlier) =
      ((resolve receiver namespaceName property force e).1,
        (resolve receiver namespaceName property force e).2.behind earlier) :=
  (aside_behind earlier).unseeing_resolve receiver namespaceName property force e trivial

end Engine

end Enablement
