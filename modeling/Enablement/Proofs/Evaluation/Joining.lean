import Enablement.Engine.Meaning
import Enablement.Proofs.Act
import Enablement.Proofs.Expr.Children
import Mathlib.Data.List.Forall2
/-!
# Evaluation — how meanings are put together

Conjunctions, disjunctions and iterations ask one part after another until one of them settles the
outcome. They are the same loop, which differs in how outcomes are joined and in the outcome that
settles it (`Act.joinUntil`); what holds of the loop holds of all of them. And a property of
meanings that passes from parts to what is put together of them holds of every expression, if it
holds of the leaves (`Expr.meaning_of_closed`).
-/

namespace Enablement

namespace Connective

/-- How two outcomes are joined. -/
def join : Connective → Truth → Truth → Truth
  | .and => Truth.and
  | .or => Truth.or

/-- The outcome that needs no more operands. -/
def stop : Connective → Truth
  | .and => .no
  | .or => .yes

theorem stop_ne (o : Connective) : o.stop ≠ .notLoaded := by
  cases o <;> decide

end Connective

namespace Act

/-- Acts one after another until an outcome needs no more of them. -/
def joinUntil (o : Connective) (soFar : Truth) : List (Act Truth) → Act Truth
  | [] => Pure.pure soFar
  | x :: xs => do
    let t := o.join soFar (← x)
    if t = o.stop then Pure.pure t else joinUntil o t xs

theorem allOf_eq_joinUntil (t : Truth) (xs : List (Act Truth)) :
    allOf t xs = joinUntil .and t xs := by
  induction xs generalizing t with
  | nil => rfl
  | cons x xs ih =>
    simp only [allOf, joinUntil, ih]
    rfl

theorem anyOf_eq_joinUntil (t : Truth) (xs : List (Act Truth)) :
    anyOf t xs = joinUntil .or t xs := by
  induction xs generalizing t with
  | nil => rfl
  | cons x xs ih =>
    simp only [anyOf, joinUntil, ih]
    rfl

end Act

namespace Meaning

/-- The acts that ask about one element after another. -/
def stepActs (body : Meaning) (ctx : Context) : List Value → List (Act Truth)
  | [] => []
  | v :: rest => body (.stepping v rest :: ctx) :: stepActs body ctx rest

variable {body body' : Meaning} {ctx ctx' : Context}

/-- Each of them is the body at some step. -/
theorem exists_of_mem_stepActs {vs : List Value} {x : Act Truth} (hx : x ∈ stepActs body ctx vs) :
    ∃ v rest, x = body (.stepping v rest :: ctx) := by
  induction vs with
  | nil => cases hx
  | cons v vs ih =>
    rcases List.mem_cons.1 hx with rfl | hx
    · exact ⟨v, vs, rfl⟩
    · exact ih hx

/-- Two bodies that are related at each step are so at all steps. -/
theorem forall₂_stepActs {R : Act Truth → Act Truth → Prop}
    (h : ∀ v rest, R (body (.stepping v rest :: ctx)) (body' (.stepping v rest :: ctx')))
    (vs : List Value) : List.Forall₂ R (stepActs body ctx vs) (stepActs body' ctx' vs) := by
  induction vs with
  | nil => exact .nil
  | cons v vs ih => exact .cons (h v vs) ih

/-- Asking about one element after another is doing these acts. -/
theorem steps_eq_joinUntil (o : Connective) (body : Meaning) (ctx : Context) (t : Truth)
    (vs : List Value) : steps o body ctx t vs = Act.joinUntil o t (stepActs body ctx vs) := by
  induction vs generalizing t with
  | nil => rfl
  | cons v vs ih =>
    have hend : ∀ stop a, (if a = stop then pure stop else steps o body ctx a vs) =
        if a = stop then pure a else Act.joinUntil o a (stepActs body ctx vs) := by
      intro stop a
      split
      · rename_i hstop
        rw [hstop]
      · exact ih a
    rw [steps, stepActs, Act.joinUntil]
    congr 1
    funext a
    cases o with
    | and => exact hend _ _
    | or => exact hend _ _

/-! ## Closed properties -/

/-- A property passes from the parts of an expression to the expression, and holds of the leaves
that only look at the default variable, or at nothing. -/
structure Closed (Q : Meaning → Prop) : Prop where
  all : ∀ {ms}, (∀ m ∈ ms, Q m) → Q (.all ms)
  any : ∀ {ms}, (∀ m ∈ ms, Q m) → Q (.any ms)
  not : ∀ {m : Meaning}, Q m → Q fun ctx => do return (← m ctx).not
  enablement : ∀ {m}, Q m → Q (.enablement m)
  withVariable : ∀ {m}, Q m → ∀ name, Q (.withVariable name m)
  resolve : ∀ {m}, Q m → ∀ name args, Q (.resolve name args m)
  adapt : ∀ {m}, Q m → ∀ target, Q (.adapt target m)
  iterate : ∀ {m}, Q m → ∀ o ifEmpty, Q (.iterate o ifEmpty m)
  count : ∀ mode, Q (.count mode)
  instanceOf : ∀ t, Q (.instanceOf t)
  answer : ∀ f : Context → Truth, Q fun ctx => pure (f ctx)

end Meaning

namespace Expr

/-- The meanings of the children, in order. -/
theorem meanings_eq_map (link : String → Meaning) (cs : List Expr) :
    meanings link cs = cs.map (meaning link) := by
  induction cs with
  | nil => rfl
  | cons c cs ih => rw [meanings, ih, List.map_cons]

/-- **A closed property of the leaves is one of the expression.** -/
theorem meaning_of_closed {Q : Meaning → Prop} (hQ : Meaning.Closed Q) {link : String → Meaning}
    (x : Expr) (hsystem : ∀ property value, .systemTest property value ∈ x.leaves →
      Q (.systemTest property value))
    (htest : ∀ q, .test q ∈ x.leaves → Q (.test q))
    (hlink : ∀ id linked, .reference id linked ∈ x.leaves → Q (link id))
    (hfixed : ∀ label outcome, .fixed label outcome ∈ x.leaves → Q (.fixed label outcome)) :
    Q (x.meaning link) := by
  induction x using Expr.inductionOn with
  | step x ih =>
  have hchild : ∀ c ∈ x.children, Q (c.meaning link) := fun c hc =>
    ih c hc (fun property value hs => hsystem property value (mem_leaves_of_mem_children hc hs))
      (fun q hq => htest q (mem_leaves_of_mem_children hc hq))
      (fun id linked hid => hlink id linked (mem_leaves_of_mem_children hc hid))
      fun label outcome hf => hfixed label outcome (mem_leaves_of_mem_children hc hf)
  have hmap : ∀ {cs : List Expr}, (∀ c ∈ cs, Q (meaning link c)) → ∀ m ∈ meanings link cs, Q m := by
    intro cs hcs
    rw [meanings_eq_map]
    exact List.forall_mem_map.2 hcs
  cases x with
  | and cs => exact hQ.all (hmap hchild)
  | or cs => exact hQ.any (hmap hchild)
  | not c => exact hQ.not (hchild c List.mem_cons_self)
  | enablement cs => exact hQ.enablement (hQ.all (hmap hchild))
  | withVariable name cs => exact hQ.withVariable (hQ.all (hmap hchild)) name
  | resolve name args cs => exact hQ.resolve (hQ.all (hmap hchild)) name args
  | adapt target cs => exact hQ.adapt (hQ.all (hmap hchild)) target
  | iterate o ifEmpty cs => exact hQ.iterate (hQ.all (hmap hchild)) o ifEmpty
  | count mode => exact hQ.count mode
  | equals v => exact hQ.answer _
  | systemTest property value => exact hsystem property value (List.mem_singleton.2 rfl)
  | test q => exact htest q (List.mem_singleton.2 rfl)
  | reference id linked => exact hlink id linked (List.mem_singleton.2 rfl)
  | instanceOf t => exact hQ.instanceOf t
  | constant b => exact hQ.answer _
  | fixed label outcome => exact hfixed label outcome (List.mem_singleton.2 rfl)
  | group o cs =>
    cases o with
    | and => exact hQ.all (hmap hchild)
    | or => exact hQ.any (hmap hchild)

end Expr

end Enablement
