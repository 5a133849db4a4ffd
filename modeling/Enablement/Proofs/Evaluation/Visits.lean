import Enablement.Proofs.Evaluation.Scans
/-!
# Evaluation — which parts are visited

A condition that is put together of parts by the logical expressions (`Compound`) evaluates some of
its parts, in an order that depends on their outcomes. Here it is evaluated by acts that list the
parts they evaluate, each with the engine it is evaluated in (`Visiting`). But for the list, this is
the evaluation of the expression (`Compound.erase_visiting`). Such acts compose as acts do, and two
evaluations agree when they do alike, visit for visit (`Visiting.Agree`).
-/

namespace Enablement

/-- Leaves an outcome in the log, if evaluation is traced. -/
def Engine.noteOutcome (e : Engine) (r : Except Fault Truth) : Engine :=
  if e.options.traceEvaluation then e.note (.evaluated r) else e

/-- How an evaluation goes. -/
structure Course (α : Type) where
  /-- What it ends with. -/
  outcome : Except Fault α
  /-- The engine that it leaves behind. -/
  engine : Engine
  /-- The parts that it visits, in order, each with the engine it is evaluated in. -/
  visits : List (Expr × Engine)

/-- An act that lists the parts it visits. -/
def Visiting (α : Type) : Type := Engine → Course α

namespace Visiting

variable {α β : Type}

def pure (a : α) : Visiting α := fun e => ⟨.ok a, e, []⟩

/-- What goes on with the value of an act visits its parts behind those of the act. -/
def bind (x : Visiting α) (f : α → Visiting β) : Visiting β := fun e =>
  match x e with
  | ⟨.ok a, e₁, visits⟩ => ⟨(f a e₁).outcome, (f a e₁).engine, visits ++ (f a e₁).visits⟩
  | ⟨.error g, e₁, visits⟩ => ⟨.error g, e₁, visits⟩

instance : Monad Visiting where
  pure := Visiting.pure
  bind := Visiting.bind

/-- The evaluation of one part. -/
def part (x : Expr) (act : Act Truth) : Visiting Truth := fun e =>
  ⟨(act e).1, (act e).2, [(x, e)]⟩

/-- Leaves the outcome in the log. -/
def logged (x : Visiting Truth) : Visiting Truth := fun e =>
  ⟨(x e).outcome, (x e).engine.noteOutcome (x e).outcome, (x e).visits⟩

/-- The act alone. -/
def erase (x : Visiting α) : Act α := fun e => ((x e).outcome, (x e).engine)

/-! ## Laws -/

section Laws

variable {x : Visiting α} {f : α → Visiting β} {a : α} {g : Fault} {e e₁ : Engine}
  {visits : List (Expr × Engine)}

theorem bind_of_ok (h : x e = ⟨.ok a, e₁, visits⟩) :
    (x >>= f) e = ⟨(f a e₁).outcome, (f a e₁).engine, visits ++ (f a e₁).visits⟩ := by
  show Visiting.bind x f e = _
  rw [Visiting.bind, h]

theorem bind_of_error (h : x e = ⟨.error g, e₁, visits⟩) :
    (x >>= f) e = ⟨.error g, e₁, visits⟩ := by
  show Visiting.bind x f e = _
  rw [Visiting.bind, h]

theorem id_map (x : Visiting α) : (id <$> x) = x := by
  funext e
  rcases h : x e with ⟨g | a, e₁, visits⟩
  · exact bind_of_error h
  · have hmap : (id <$> x) e = ⟨.ok a, e₁, visits ++ []⟩ := bind_of_ok h
    rw [hmap, List.append_nil]

theorem pure_bind (a : α) (f : α → Visiting β) : (Pure.pure a >>= f : Visiting β) = f a := by
  funext e
  have ha : (Pure.pure a : Visiting α) e = ⟨.ok a, e, []⟩ := rfl
  exact bind_of_ok ha

theorem bind_assoc {γ : Type} (x : Visiting α) (f : α → Visiting β) (g : β → Visiting γ) :
    (x >>= f >>= g) = x >>= fun a => f a >>= g := by
  funext e
  rcases h : x e with ⟨fault | a, e₁, visits⟩
  · rw [bind_of_error h, bind_of_error (bind_of_error h)]
  · rw [bind_of_ok h]
    have hfirst := bind_of_ok (f := f) h
    rcases hf : f a e₁ with ⟨fault | b, e₂, later⟩
    · rw [hf] at hfirst
      rw [bind_of_error hfirst, bind_of_error hf]
    · rw [hf] at hfirst
      rw [bind_of_ok hfirst, bind_of_ok hf, List.append_assoc]

instance : LawfulMonad Visiting := LawfulMonad.mk' Visiting id_map pure_bind bind_assoc

end Laws

/-! ## The act alone -/

@[simp] theorem erase_pure (a : α) : erase (Pure.pure a : Visiting α) = Pure.pure a := rfl

@[simp] theorem erase_part (x : Expr) (act : Act Truth) : erase (.part x act) = act := rfl

@[simp] theorem erase_bind (x : Visiting α) (f : α → Visiting β) :
    erase (x >>= f) = x.erase >>= fun a => (f a).erase := by
  funext e
  have hact : x.erase e = ((x e).outcome, (x e).engine) := rfl
  rcases h : x e with ⟨g | a, e₁, visits⟩
  · rw [h] at hact
    rw [Act.bind_of_error hact, erase, bind_of_error h]
  · rw [h] at hact
    rw [Act.bind_of_ok hact, erase, bind_of_ok h]
    rfl

end Visiting

/-! ## The loop, for acts of any kind -/

/-- Acts one after another until an outcome needs no more of them. -/
def Connective.joinAll {m : Type → Type} [Monad m] (o : Connective) (soFar : Truth) :
    List (m Truth) → m Truth
  | [] => pure soFar
  | x :: xs => do
    let t := o.join soFar (← x)
    if t = o.stop then pure t else o.joinAll t xs

theorem Visiting.erase_joinAll (o : Connective) (t : Truth) (xs : List (Visiting Truth)) :
    erase (o.joinAll t xs) = Act.joinUntil o t (xs.map erase) := by
  induction xs generalizing t with
  | nil => exact erase_pure t
  | cons x xs ih =>
    rw [Connective.joinAll, erase_bind, List.map_cons, Act.joinUntil]
    congr 1
    funext u
    show erase (if o.join t u = o.stop then Pure.pure _ else _) =
      if o.join t u = o.stop then _ else _
    split
    · exact erase_pure _
    · exact ih _

/-! ## Compound conditions -/

/-- A condition that is put together of parts by the logical expressions. -/
inductive Compound where
  /-- Any expression. -/
  | part (x : Expr)
  | not (c : Compound)
  | and (cs : List Compound)
  | or (cs : List Compound)
  | enablement (cs : List Compound)

namespace Compound

mutual

/-- The expression. -/
def expr : Compound → Expr
  | .part x => x
  | .not c => .not c.expr
  | .and cs => .and (exprs cs)
  | .or cs => .or (exprs cs)
  | .enablement cs => .enablement (exprs cs)

def exprs : List Compound → List Expr
  | [] => []
  | c :: cs => c.expr :: exprs cs

end

mutual

/-- The evaluation of the expression, with the parts that it visits. -/
def visiting (link : String → Meaning) (ctx : Context) : Compound → Visiting Truth
  | .part x => .part x (x.meaning link ctx)
  | .not c => Truth.not <$> c.visiting link ctx
  | .and cs => Connective.and.joinAll .yes (visitings link ctx cs)
  | .or cs => if cs.isEmpty then pure .yes else Connective.or.joinAll .no (visitings link ctx cs)
  | .enablement cs => .logged (Connective.and.joinAll .yes (visitings link ctx cs))

def visitings (link : String → Meaning) (ctx : Context) : List Compound → List (Visiting Truth)
  | [] => []
  | c :: cs => c.visiting link ctx :: visitings link ctx cs

end

variable {link : String → Meaning} {ctx : Context}

theorem visitings_eq_map (cs : List Compound) :
    visitings link ctx cs = cs.map (visiting link ctx) := by
  induction cs with
  | nil => rfl
  | cons c cs ih => rw [visitings, ih, List.map_cons]

/-- A conjunction without its list of parts. -/
theorem erase_all {cs : List Compound}
    (h : (visitings link ctx cs).map Visiting.erase =
      (Expr.meanings link (exprs cs)).map (· ctx)) :
    (Connective.and.joinAll .yes (visitings link ctx cs)).erase =
      Meaning.all (Expr.meanings link (exprs cs)) ctx := by
  rw [Visiting.erase_joinAll, h, Meaning.all, Act.allOf_eq_joinUntil]

mutual

/-- **But for the list of parts, it is the evaluation of the expression.** -/
theorem erase_visiting : ∀ c : Compound, (c.visiting link ctx).erase = c.expr.meaning link ctx
  | .part x => Visiting.erase_part x _
  | .not c => by
    show Visiting.erase (c.visiting link ctx >>= fun t => pure t.not) = _
    rw [Visiting.erase_bind, erase_visiting c]
    rfl
  | .and cs => erase_all (erase_visitings cs)
  | .or [] => rfl
  | .or (c :: cs) => by
    show (Connective.or.joinAll .no (visitings link ctx (c :: cs))).erase =
      Act.anyOf .no ((Expr.meanings link (exprs (c :: cs))).map (· ctx))
    rw [Visiting.erase_joinAll, erase_visitings (c :: cs), Act.anyOf_eq_joinUntil]
  | .enablement cs => by
    have hall : (Connective.and.joinAll .yes (visitings link ctx cs)).erase =
        Meaning.all (Expr.meanings link (exprs cs)) ctx := erase_all (erase_visitings cs)
    show _ = Meaning.enablement (.all (Expr.meanings link (exprs cs))) ctx
    funext e
    rw [Meaning.enablement, ← hall]
    rfl

theorem erase_visitings : ∀ cs : List Compound, (visitings link ctx cs).map Visiting.erase =
    (Expr.meanings link (exprs cs)).map (· ctx)
  | [] => rfl
  | c :: cs => by
    rw [visitings, List.map_cons, erase_visiting c, erase_visitings cs]
    rfl

end

end Compound

/-! ## Agreement -/

namespace Visiting

variable {α β : Type} {R : Engine → Engine → Prop}

/-- Two evaluations end with the same outcome or the same fault and visit the same parts in the same
order, in engines that are related all along. -/
structure Agree (R : Engine → Engine → Prop) (r r' : Course α) : Prop where
  outcome : r.outcome = r'.outcome
  engine : R r.engine r'.engine
  visits : List.Forall₂ (fun v w => v.1 = w.1 ∧ R v.2 w.2) r.visits r'.visits

theorem Agree.refl (r : Course α) : Agree Eq r r :=
  ⟨rfl, rfl, List.forall₂_same.2 fun _ _ => ⟨rfl, rfl⟩⟩

theorem Agree.mono {R' : Engine → Engine → Prop} (hR : ∀ d d', R d d' → R' d d') {r r' : Course α}
    (h : Agree R r r') : Agree R' r r' :=
  ⟨h.outcome, hR _ _ h.engine, h.visits.imp fun _ _ hvw => ⟨hvw.1, hR _ _ hvw.2⟩⟩

/-- From engines that are related, two acts agree. -/
def Alike (R : Engine → Engine → Prop) (x y : Visiting α) : Prop :=
  ∀ d d', R d d' → Agree R (x d) (y d')

variable {x y : Visiting α} {f g : α → Visiting β}

namespace Alike

theorem pure (a : α) : Alike R (Pure.pure a) (Pure.pure a) := fun _ _ h => ⟨rfl, h, .nil⟩

theorem part {act : Act Truth}
    (hact : ∀ d d', R d d' → (act d).1 = (act d').1 ∧ R (act d).2 (act d').2) (x : Expr) :
    Alike R (.part x act) (.part x act) := fun d d' h =>
  ⟨(hact d d' h).1, (hact d d' h).2, .cons ⟨rfl, h⟩ .nil⟩

/-- Acts that are alike are so one after another. -/
theorem bind (hxy : Alike R x y) (hfg : ∀ a, Alike R (f a) (g a)) :
    Alike R (x >>= f) (y >>= g) := by
  intro d d' h
  obtain ⟨houtcome, hengine, hvisits⟩ := hxy d d' h
  rcases hx : x d with ⟨r, d₁, visits⟩
  rcases hy : y d' with ⟨r', d₁', visits'⟩
  rw [hx, hy] at houtcome hengine hvisits
  obtain rfl : r = r' := houtcome
  cases r with
  | error fault =>
    rw [bind_of_error hx, bind_of_error hy]
    exact ⟨rfl, hengine, hvisits⟩
  | ok a =>
    have hnext := hfg a d₁ d₁' hengine
    rw [bind_of_ok hx, bind_of_ok hy]
    exact ⟨hnext.outcome, hnext.engine, List.rel_append hvisits hnext.visits⟩

theorem joinAll {xs ys : List (Visiting Truth)} (h : List.Forall₂ (Alike R) xs ys)
    (o : Connective) (t : Truth) : Alike R (o.joinAll t xs) (o.joinAll t ys) := by
  induction h generalizing t with
  | nil => exact .pure t
  | cons hxy hrest ih =>
    refine hxy.bind fun a => ?_
    dsimp only
    split
    · exact .pure _
    · exact ih _

end Alike

end Visiting

/-- Engines stay related when an outcome is left in the log of one of them. -/
structure Engine.IgnoresLog (R : Engine → Engine → Prop) : Prop where
  left : ∀ {d d' : Engine} (r : Except Fault Truth), R d d' → R (d.noteOutcome r) d'
  right : ∀ {d d' : Engine} (r : Except Fault Truth), R d d' → R d (d'.noteOutcome r)

variable {R : Engine → Engine → Prop}

namespace Visiting.Alike

variable {x y : Visiting Truth}

theorem logged_left (hR : Engine.IgnoresLog R) (h : Alike R x y) : Alike R x.logged y :=
  fun d d' hd => ⟨(h d d' hd).outcome, hR.left _ (h d d' hd).engine, (h d d' hd).visits⟩

theorem logged_right (hR : Engine.IgnoresLog R) (h : Alike R x y) : Alike R x y.logged :=
  fun d d' hd => ⟨(h d d' hd).outcome, hR.right _ (h d d' hd).engine, (h d d' hd).visits⟩

end Visiting.Alike

namespace Compound

open Visiting (Alike)

variable {link : String → Meaning} {ctx : Context}

mutual

/-- A condition is like itself if its parts are. -/
theorem alike_self (hR : Engine.IgnoresLog R)
    (hpart : ∀ x, Alike R (.part x (x.meaning link ctx)) (.part x (x.meaning link ctx))) :
    ∀ c : Compound, Alike R (c.visiting link ctx) (c.visiting link ctx)
  | .part x => hpart x
  | .not c => (alike_self hR hpart c).bind fun t => .pure t.not
  | .and cs => .joinAll (forall₂_alike_self hR hpart cs) .and .yes
  | .or [] => .pure Truth.yes
  | .or (c :: cs) => .joinAll (forall₂_alike_self hR hpart (c :: cs)) .or .no
  | .enablement cs => by
    have hall : Alike R (Connective.and.joinAll .yes (visitings link ctx cs))
        (Connective.and.joinAll .yes (visitings link ctx cs)) :=
      .joinAll (forall₂_alike_self hR hpart cs) .and .yes
    exact (hall.logged_left hR).logged_right hR

theorem forall₂_alike_self (hR : Engine.IgnoresLog R)
    (hpart : ∀ x, Alike R (.part x (x.meaning link ctx)) (.part x (x.meaning link ctx))) :
    ∀ cs : List Compound, List.Forall₂ (Alike R) (visitings link ctx cs) (visitings link ctx cs)
  | [] => .nil
  | c :: cs => .cons (alike_self hR hpart c) (forall₂_alike_self hR hpart cs)

end

end Compound

end Enablement
