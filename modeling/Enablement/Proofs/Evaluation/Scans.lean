import Enablement.Proofs.Evaluation.Joining
/-!
# Evaluation — what a conjunction or disjunction evaluates

Children are evaluated one after another, each in the engine that the one before has left, until
one of them settles the outcome or fails; those behind it are not evaluated. If none does, the
outcome is undecided as soon as that of one child is (`Act.Scans`). The loop that joins the outcomes
does just this (`Act.joinUntil_eq_iff_scans`), and the composite expressions are this loop
(`Engine.composites_scan`).
-/

namespace Enablement

/-! ## Joining outcomes -/

namespace Connective

variable {o : Connective} {t u : Truth} {ts : List Truth}

/-- The outcome of no operands at all. -/
def neutral : Connective → Truth
  | .and => .yes
  | .or => .no

/-- The outcome when no operand settles it: undecided, if one of them is. -/
def unsettled (o : Connective) (ts : List Truth) : Truth :=
  if .notLoaded ∈ ts then .notLoaded else o.neutral

@[simp] theorem neutral_ne_stop (o : Connective) : o.neutral ≠ o.stop := by
  cases o <;> decide

@[simp] theorem join_neutral (o : Connective) (t : Truth) : o.join o.neutral t = t := by
  cases o <;> cases t <;> rfl

@[simp] theorem join_neutral_right (o : Connective) (t : Truth) : o.join t o.neutral = t := by
  cases o <;> cases t <;> rfl

theorem join_assoc (o : Connective) (t u v : Truth) :
    o.join (o.join t u) v = o.join t (o.join u v) := by
  cases o <;> cases t <;> cases u <;> cases v <;> rfl

/-- Joined outcomes need no more operands as soon as one of them does not. -/
@[simp] theorem join_eq_stop_iff : o.join t u = o.stop ↔ t = o.stop ∨ u = o.stop := by
  cases o <;> cases t <;> cases u <;> decide

@[simp] theorem unsettled_nil (o : Connective) : o.unsettled [] = o.neutral := by
  simp [unsettled]

theorem unsettled_cons (h : t ≠ o.stop) : o.unsettled (t :: ts) = o.join t (o.unsettled ts) := by
  simp only [unsettled, List.mem_cons]
  by_cases hts : .notLoaded ∈ ts
  · cases o <;> cases t <;> simp_all [stop, join, Truth.and, Truth.or]
  · cases o <;> cases t <;> simp_all [stop, join, neutral, Truth.and, Truth.or]

end Connective

namespace Act

/-! ## Scanning -/

/-- Acts run one after another, each in the engine that the one before has left. None of them fails
or settles the outcome; the outcomes are listed. -/
inductive Passes (o : Connective) : List (Act Truth) → Engine → List Truth → Engine → Prop
  | nil {e : Engine} : Passes o [] e [] e
  | cons {x : Act Truth} {xs : List (Act Truth)} {e e₁ e₂ : Engine} {t : Truth} {ts : List Truth} :
      x e = (.ok t, e₁) → t ≠ o.stop → Passes o xs e₁ ts e₂ → Passes o (x :: xs) e (t :: ts) e₂

/-- What running acts one after another ends with, and the engine that it leaves behind. -/
inductive Scans (o : Connective) (xs : List (Act Truth)) (e : Engine) :
    Except Fault Truth → Engine → Prop
  /-- The first act that settles the outcome is the last one to run. -/
  | settled {before after : List (Act Truth)} {x : Act Truth} {ts : List Truth} {e₁ e₂ : Engine} :
      xs = before ++ x :: after → Passes o before e ts e₁ → x e₁ = (.ok o.stop, e₂) →
      Scans o xs e (.ok o.stop) e₂
  /-- So is the first one that fails. -/
  | failed {before after : List (Act Truth)} {x : Act Truth} {ts : List Truth} {f : Fault}
      {e₁ e₂ : Engine} :
      xs = before ++ x :: after → Passes o before e ts e₁ → x e₁ = (.error f, e₂) →
      Scans o xs e (.error f) e₂
  /-- All of them run. -/
  | unsettled {ts : List Truth} {e₁ : Engine} :
      Passes o xs e ts e₁ → Scans o xs e (.ok (o.unsettled ts)) e₁

variable {o : Connective} {x : Act Truth} {xs : List (Act Truth)} {e e₁ : Engine} {t u : Truth}
  {ts : List Truth}

/-! ## The loop, one act at a time -/

theorem joinUntil_cons_of_pass (hx : x e = (.ok u, e₁)) (ht : t ≠ o.stop) (hu : u ≠ o.stop) :
    joinUntil o t (x :: xs) e = joinUntil o (o.join t u) xs e₁ := by
  have hjoin : o.join t u ≠ o.stop := by simp [ht, hu]
  rw [joinUntil, bind_of_ok hx, if_neg hjoin]

theorem joinUntil_cons_of_stop (hx : x e = (.ok o.stop, e₁)) :
    joinUntil o t (x :: xs) e = (.ok o.stop, e₁) := by
  have hjoin : o.join t o.stop = o.stop := by simp
  rw [joinUntil, bind_of_ok hx, if_pos hjoin, hjoin]
  rfl

theorem joinUntil_cons_of_error {f : Fault} (hx : x e = (.error f, e₁)) :
    joinUntil o t (x :: xs) e = (.error f, e₁) := by
  rw [joinUntil, bind_of_error hx]

/-- **The loop goes on behind acts that pass**, with their outcomes joined. -/
theorem Passes.joinUntil_append (h : Passes o xs e ts e₁) (ht : t ≠ o.stop)
    (ys : List (Act Truth)) :
    joinUntil o t (xs ++ ys) e = joinUntil o (o.join t (o.unsettled ts)) ys e₁ := by
  induction h generalizing t with
  | nil =>
    rw [o.unsettled_nil, o.join_neutral_right, List.nil_append]
  | @cons x xs e e₁ e₂ u ts hx hu hpasses ih =>
    have hjoin : o.join t u ≠ o.stop := by simp [ht, hu]
    rw [List.cons_append, joinUntil_cons_of_pass hx ht hu, ih hjoin, Connective.unsettled_cons hu,
      o.join_assoc]

/-- The loop ends as the scan says. -/
theorem Scans.joinUntil_eq {r : Except Fault Truth} (h : Scans o xs e r e₁) :
    joinUntil o o.neutral xs e = (r, e₁) := by
  cases h with
  | settled hxs hpasses hx =>
    rw [hxs, hpasses.joinUntil_append o.neutral_ne_stop, joinUntil_cons_of_stop hx]
  | failed hxs hpasses hx =>
    rw [hxs, hpasses.joinUntil_append o.neutral_ne_stop, joinUntil_cons_of_error hx]
  | @unsettled ts e₁ hpasses =>
    have hrun := hpasses.joinUntil_append o.neutral_ne_stop []
    rw [List.append_nil, o.join_neutral] at hrun
    exact hrun

/-! ## Every list is scanned -/

/-- An act that passes stands before what comes after it. -/
theorem Scans.cons {r : Except Fault Truth} {e₂ : Engine} (hx : x e = (.ok t, e₁))
    (ht : t ≠ o.stop) (h : Scans o xs e₁ r e₂) : ∃ r', Scans o (x :: xs) e r' e₂ := by
  cases h with
  | @settled before after y ts d d' hxs hpasses hy =>
    exact ⟨_, .settled (by rw [hxs, List.cons_append]) (.cons hx ht hpasses) hy⟩
  | @failed before after y ts f d d' hxs hpasses hy =>
    exact ⟨_, .failed (by rw [hxs, List.cons_append]) (.cons hx ht hpasses) hy⟩
  | unsettled hpasses => exact ⟨_, .unsettled (.cons hx ht hpasses)⟩

theorem exists_scans (o : Connective) (xs : List (Act Truth)) (e : Engine) :
    ∃ r e₁, Scans o xs e r e₁ := by
  induction xs generalizing e with
  | nil => exact ⟨_, e, .unsettled .nil⟩
  | cons x xs ih =>
    have hfirst : x :: xs = [] ++ x :: xs := rfl
    rcases hx : x e with ⟨f | t, e₁⟩
    · exact ⟨_, e₁, .failed hfirst .nil hx⟩
    · by_cases ht : t = o.stop
      · subst ht
        exact ⟨_, e₁, .settled hfirst .nil hx⟩
      · obtain ⟨r, e₂, hscan⟩ := ih e₁
        obtain ⟨r', hscan'⟩ := hscan.cons hx ht
        exact ⟨r', e₂, hscan'⟩

/-- **The loop is the scan.** -/
theorem joinUntil_eq_iff_scans {r : Except Fault Truth} :
    joinUntil o o.neutral xs e = (r, e₁) ↔ Scans o xs e r e₁ := by
  constructor
  · intro h
    obtain ⟨r', e', hscan⟩ := exists_scans o xs e
    have heq := hscan.joinUntil_eq.symm.trans h
    cases heq
    exact hscan
  · exact Scans.joinUntil_eq

end Act

/-! ## Composite expressions -/

namespace Engine

/-- What an expression means within an evaluation that begins in an engine. How deep references may
lead is settled at the beginning. -/
def within (e : Engine) (x : Expr) : Meaning :=
  x.meaning (linkWithin (e.referenceDepth + maxReentries))

theorem evaluate_eq_within (x : Expr) (ctx : Context) (e : Engine) :
    evaluate x ctx e = e.within x ctx e := rfl

variable {ms : List Meaning} {ctx : Context} {e e' : Engine} {r : Except Fault Truth}

theorem all_eq_iff_scans :
    Meaning.all ms ctx e = (r, e') ↔ Act.Scans .and (ms.map (· ctx)) e r e' := by
  rw [Meaning.all, Act.allOf_eq_joinUntil]
  exact Act.joinUntil_eq_iff_scans

theorem any_eq_iff_scans (hms : ms ≠ []) :
    Meaning.any ms ctx e = (r, e') ↔ Act.Scans .or (ms.map (· ctx)) e r e' := by
  have hempty : ms.isEmpty = false := by simp [hms]
  rw [Meaning.any, hempty, if_neg Bool.false_ne_true, Act.anyOf_eq_joinUntil]
  exact Act.joinUntil_eq_iff_scans

/-- Within an evaluation, a conjunction scans its children. -/
theorem within_and_eq_iff_scans (e : Engine) (cs : List Expr) {d d' : Engine} :
    e.within (.and cs) ctx d = (r, d') ↔
      Act.Scans .and (cs.map fun c => e.within c ctx) d r d' := by
  have hall : e.within (.and cs) ctx d =
      Meaning.all (Expr.meanings (linkWithin (e.referenceDepth + maxReentries)) cs) ctx d := rfl
  rw [hall, all_eq_iff_scans, Expr.meanings_eq_map, List.map_map]
  rfl

/-- So does a disjunction of at least one child. -/
theorem within_or_eq_iff_scans (e : Engine) {cs : List Expr} (hcs : cs ≠ []) {d d' : Engine} :
    e.within (.or cs) ctx d = (r, d') ↔
      Act.Scans .or (cs.map fun c => e.within c ctx) d r d' := by
  have hany : e.within (.or cs) ctx d =
      Meaning.any (Expr.meanings (linkWithin (e.referenceDepth + maxReentries)) cs) ctx d := rfl
  have hms : Expr.meanings (linkWithin (e.referenceDepth + maxReentries)) cs ≠ [] := by
    rw [Expr.meanings_eq_map]
    simpa using hcs
  rw [hany, any_eq_iff_scans hms, Expr.meanings_eq_map, List.map_map]
  rfl

/-- **Composites evaluate their children in turn, and no further than they need to.** A conjunction
of any children, in any context and engine, ends as the scan for a falsity does, and a disjunction
of at least one child as the scan for a truth; one of no children is true. What the expressions for
conjunction and disjunction evaluate to is this, over the children as they are evaluated in the same
evaluation. The root of a condition ends as the conjunction does, also when it leaves its outcome in
the log. -/
theorem composites_scan (ctx : Context) (e : Engine) :
    (∀ (ms : List Meaning) (r : Except Fault Truth) (e' : Engine),
      Meaning.all ms ctx e = (r, e') ↔ Act.Scans .and (ms.map (· ctx)) e r e') ∧
    (∀ (ms : List Meaning) (r : Except Fault Truth) (e' : Engine), ms ≠ [] →
      (Meaning.any ms ctx e = (r, e') ↔ Act.Scans .or (ms.map (· ctx)) e r e')) ∧
    Meaning.any [] ctx e = (.ok .yes, e) ∧
    ∀ (cs : List Expr) (r : Except Fault Truth) (e' : Engine),
      let children := cs.map fun c => e.within c ctx
      (evaluate (.and cs) ctx e = (r, e') ↔ Act.Scans .and children e r e') ∧
      (cs ≠ [] → (evaluate (.or cs) ctx e = (r, e') ↔ Act.Scans .or children e r e')) ∧
      evaluate (.or []) ctx e = (.ok .yes, e) ∧
      (evaluate (.and cs) ctx e = (r, e') → evaluate (.enablement cs) ctx e =
        (r, if e'.options.traceEvaluation then e'.note (.evaluated r) else e')) := by
  refine ⟨fun ms r e' => all_eq_iff_scans, fun ms r e' hms => any_eq_iff_scans hms, rfl, ?_⟩
  intro cs r e' children
  refine ⟨e.within_and_eq_iff_scans cs, fun hcs => e.within_or_eq_iff_scans hcs, rfl, fun h => ?_⟩
  show Meaning.enablement (e.within (.and cs)) ctx e = _
  rw [evaluate_eq_within] at h
  rw [Meaning.enablement, h]

/-- A child that leaves an entry of its own. -/
def entryOf (label outcome : String) : Event := .fixed (some label) outcome .null

/-- Of three children, the undecided one does not end a conjunction, the false one does, and the
third is not evaluated. A disjunction evaluates all three. -/
theorem composites_scan_three :
    let cs := [Expr.fixed (some "a") "NOT_LOADED", .fixed (some "b") "FALSE",
      .fixed (some "c") "TRUE"]
    let e : Engine := { options := { traceEvaluation := true } }
    let e₂ := (e.record (entryOf "a" "NOT_LOADED")).record (entryOf "b" "FALSE")
    cs ≠ [] ∧ evaluate (.and cs) [] e = (.ok .no, e₂) ∧
      evaluate (.enablement cs) [] e = (.ok .no, e₂.note (.evaluated (.ok .no))) ∧
      evaluate (.or cs) [] e = (.ok .yes, e₂.record (entryOf "c" "TRUE")) := by
  intro cs e e₂
  have hne : cs ≠ [] := List.cons_ne_nil _ _
  obtain ⟨-, -, -, hnodes⟩ := composites_scan [] e
  obtain ⟨hand, -, -, hroot⟩ := hnodes cs (.ok .no) e₂
  obtain ⟨-, hor, -, -⟩ := hnodes cs (.ok .yes) (e₂.record (entryOf "c" "TRUE"))
  have hsecond : (cs.map fun c => e.within c []) =
      [e.within (.fixed (some "a") "NOT_LOADED") []] ++
        e.within (.fixed (some "b") "FALSE") [] :: [e.within (.fixed (some "c") "TRUE") []] := rfl
  have hthird : (cs.map fun c => e.within c []) =
      [e.within (.fixed (some "a") "NOT_LOADED") [], e.within (.fixed (some "b") "FALSE") []] ++
        e.within (.fixed (some "c") "TRUE") [] :: [] := rfl
  have hfalse := hand.2 (.settled hsecond (.cons rfl (by decide) .nil) rfl)
  have htrue := (hor hne).2
    (.settled hthird (.cons rfl (by decide) (.cons rfl (by decide) .nil)) rfl)
  exact ⟨hne, hfalse, hroot hfalse, htrue⟩

end Engine

end Enablement
