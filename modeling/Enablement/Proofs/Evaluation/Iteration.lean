import Enablement.Proofs.Evaluation.Answers
import Enablement.Proofs.Evaluation.Scans
/-!
# Evaluation — iterating over elements

An iteration asks the conjunction of its children about one element after another, until one
settles the outcome or fails. It goes by the elements alone: whether they are stepped through in one
scope, or a single one is bound in a scope of its own, makes no difference
(`Engine.within_stepping`). So an iteration is a scan over the elements, however many there are
(`Engine.iterate_scans_elements`).
-/

namespace Enablement

/-! ## The elements of a value -/

namespace Platform

variable {α : Type} (p : Platform) (v : Value) (target : String) (read? : Value → Option α)

/-- What is read of a value, or else of what a loaded adapter makes of it. -/
def readThrough? : Option α := (read? v).or ((p.adapt? v target).bind read?)

/-- The elements that an iteration over a value is about. -/
def elements? : Option (List Value) := p.readThrough? v iterableType Value.elements?

/-- An adapter that is used is loaded. -/
theorem adapterStatus_of_adapt? {w : Value} (h : p.adapt? v target = some w) :
    p.adapterStatus v target = .loaded := by
  rw [adapt?] at h
  rw [adapterStatus]
  rcases ha : p.adapter? v target with _ | _ | f
  · rw [ha] at h
    cases h
  · rw [ha] at h
    cases h
  · rfl

/-- **What a collection is read as**: what it has by itself or through an adapter, or the reason why
it has nothing. -/
theorem collection_eq : Meaning.collection p v target read? =
    match p.readThrough? v target read? with
    | some a => .ok (some a)
    | none =>
      if p.adapterStatus v target = .notLoaded then .ok none
      else .error (.notACollection v.typeName) := by
  rw [Meaning.collection, readThrough?]
  cases read? v with
  | some a => rfl
  | none =>
    rw [Meaning.adaptCollection, Option.none_or]
    cases hadapted : p.adapt? v target with
    | none => rfl
    | some w =>
      have hstatus : p.adapterStatus v target ≠ .notLoaded := by
        rw [p.adapterStatus_of_adapt? v target hadapted]
        decide
      rw [Option.bind_some]
      cases hread : read? w with
      | none => simp only [hread, if_neg hstatus]
      | some a => simp only [hread]

end Platform

/-! ## The loop over the elements -/

namespace Meaning

/-- An iteration begins with the outcome over no elements. -/
theorem ofBool_and_eq_neutral (o : Connective) : Truth.ofBool (o == .and) = o.neutral := by
  cases o <;> rfl

theorem emptyOutcome_eq (o : Connective) (ifEmpty : Option Bool) :
    emptyOutcome o ifEmpty = (ifEmpty.map Truth.ofBool).getD o.neutral := by
  rw [emptyOutcome, ← ofBool_and_eq_neutral]
  cases ifEmpty <;> rfl

variable {body : Meaning} {ctx : Context}

/-- A scope that steps through elements binds each as a scope of its own does. -/
theorem Extensional.stepping (hbody : body.Extensional) (v : Value) (rest : List Value)
    (ctx : Context) : body (.stepping v rest :: ctx) = body (.rebound v :: ctx) :=
  hbody _ _ ((Context.AnswersAlike.refl ctx).push (Context.plain_stepping v rest)
    (Context.plain_rebound v) rfl)

theorem stepActs_eq_map (hbody : body.Extensional) (ctx : Context) (vs : List Value) :
    stepActs body ctx vs = vs.map fun v => body (.rebound v :: ctx) := by
  induction vs with
  | nil => rfl
  | cons v vs ih => rw [stepActs, ih, hbody.stepping, List.map_cons]

/-- The loop over the elements is the scan over them. -/
theorem steps_eq_iff_scans (hbody : body.Extensional) {o : Connective} {vs : List Value}
    {e e' : Engine} {r : Except Fault Truth} :
    steps o body ctx o.neutral vs e = (r, e') ↔
      Act.Scans o (vs.map fun v => body (.rebound v :: ctx)) e r e' := by
  rw [steps_eq_joinUntil, stepActs_eq_map hbody]
  exact Act.joinUntil_eq_iff_scans

/-- **One element is asked about as the loop would.** -/
theorem steps_singleton (hbody : body.Extensional) (o : Connective) (ctx : Context) (v : Value) :
    steps o body ctx o.neutral [v] = body (.rebound v :: ctx) := by
  rw [steps_eq_joinUntil, stepActs_eq_map hbody, List.map_singleton]
  funext e
  rcases hrun : body (.rebound v :: ctx) e with ⟨f | t, e₁⟩
  · exact Act.joinUntil_cons_of_error hrun
  · by_cases ht : t = o.stop
    · subst ht
      exact Act.joinUntil_cons_of_stop hrun
    · rw [Act.joinUntil_cons_of_pass hrun o.neutral_ne_stop ht, o.join_neutral]
      rfl

/-- An iteration, by the elements that it is about. -/
theorem iterate_eq (o : Connective) (ifEmpty : Option Bool) (body : Meaning) (ctx : Context)
    (e : Engine) :
    let v := Context.defaultVariable ctx
    iterate o ifEmpty body ctx e =
      match e.platform.elements? v with
      | none =>
        (if e.platform.adapterStatus v Platform.iterableType = .notLoaded then .ok .notLoaded
          else .error (.notACollection v.typeName), e)
      | some [] => (.ok (emptyOutcome o ifEmpty), e)
      | some [w] => body (.rebound w :: ctx) e
      | some vs => steps o body ctx (.ofBool (o == .and)) vs e := by
  intro v
  rw [iterate, Act.read_bind, e.platform.collection_eq, ← Platform.elements?]
  rcases e.platform.elements? v with _ | _ | ⟨w, _ | ⟨w', rest⟩⟩
  · dsimp only
    split
    · exact Act.bind_of_ok (Act.ofExcept_apply _ e) _
    · exact Act.bind_of_error (Act.ofExcept_apply _ e) _
  · rfl
  · rfl
  · rfl

/-- An iteration over some elements is the loop over them, even if it is only one. -/
theorem iterate_of_elements (hbody : body.Extensional) (o : Connective) (ifEmpty : Option Bool)
    {e : Engine} {vs : List Value} (hvs : vs ≠ [])
    (helements : e.platform.elements? (Context.defaultVariable ctx) = some vs) :
    iterate o ifEmpty body ctx e = steps o body ctx o.neutral vs e := by
  rw [iterate_eq, helements]
  match vs with
  | [] => exact absurd rfl hvs
  | [v] => rw [steps_singleton hbody]
  | v :: w :: rest => rw [← ofBool_and_eq_neutral]

end Meaning

/-! ## Iterations -/

namespace Engine

theorem within_extensional (e : Engine) (x : Expr) : (e.within x).Extensional :=
  x.meaning_extensional (linkWithin_extensional _)

/-- Within an evaluation, it does not matter whether a value is stepped to or bound. -/
theorem within_stepping (e : Engine) (x : Expr) (v : Value) (rest : List Value) (ctx : Context) :
    e.within x (.stepping v rest :: ctx) = e.within x (.rebound v :: ctx) :=
  (e.within_extensional x).stepping v rest ctx

/-- **An iteration is a scan over the elements**, however many there are. If the default variable
has elements, by itself or through a loaded adapter, the conjunction of the children is asked about
one after another, each time with the element bound, until it settles the outcome of the connective
or fails; for each element it scans the children in turn. Whether the element is bound in a scope of
its own or stepped to makes no difference, and the loop over a single element asks about it once.
Over no elements nothing is evaluated, and the outcome is the one that is set for this case, or else
the neutral one. Where the default variable has no elements, the outcome is undecided if an adapter
is declared and not loaded, and a fault in all other cases. -/
theorem iterate_scans_elements (o : Connective) (ifEmpty : Option Bool) (cs : List Expr)
    (ctx : Context) (e : Engine) :
    let v := Context.defaultVariable ctx
    let about := fun w : Value => e.within (.and cs) (.rebound w :: ctx)
    let run := evaluate (.iterate o ifEmpty cs) ctx e
    (∀ vs, vs ≠ [] → e.platform.elements? v = some vs → ∀ r e',
      run = (r, e') ↔ Act.Scans o (vs.map about) e r e') ∧
    (∀ w d r d', about w d = (r, d') ↔
      Act.Scans .and (cs.map fun c => e.within c (.rebound w :: ctx)) d r d') ∧
    (∀ x w rest, e.within x (.stepping w rest :: ctx) = e.within x (.rebound w :: ctx)) ∧
    (∀ w, Meaning.steps o (e.within (.and cs)) ctx o.neutral [w] = about w) ∧
    (e.platform.elements? v = some [] →
      run = (.ok ((ifEmpty.map Truth.ofBool).getD o.neutral), e)) ∧
    (e.platform.elements? v = none →
      run = (if e.platform.adapterStatus v Platform.iterableType = .notLoaded then .ok .notLoaded
        else .error (.notACollection v.typeName), e)) := by
  intro v about run
  have hbody := e.within_extensional (.and cs)
  have hrun : run = Meaning.iterate o ifEmpty (e.within (.and cs)) ctx e := rfl
  refine ⟨fun vs hvs helements r e' => ?_, fun w d r d' => e.within_and_eq_iff_scans cs,
    fun x w rest => e.within_stepping x w rest ctx, fun w => Meaning.steps_singleton hbody o ctx w,
    fun helements => ?_, fun helements => ?_⟩
  · rw [hrun, Meaning.iterate_of_elements hbody o ifEmpty hvs helements]
    exact Meaning.steps_eq_iff_scans hbody
  · rw [hrun, Meaning.iterate_eq, helements, Meaning.emptyOutcome_eq]
  · rw [hrun, Meaning.iterate_eq, helements]

/-- A context with a default variable and nothing else. -/
def asking (v : Value) : Context := [.frame { defaultVariable := v }]

/-- Of three elements, the second settles a disjunction, and the third is not asked about. A list
without elements has the outcome that is set, and a number is no collection. -/
theorem iterate_scans_elements_second :
    let cs := [Expr.fixed (some "a") "TRUE", .equals (.ofNat 2)]
    let vs := [Value.ofNat 1, .ofNat 2, .ofNat 3]
    let e : Engine := {}
    let e₁ := e.record (.fixed (some "a") "TRUE" (.ofNat 1))
    let e₂ := e₁.record (.fixed (some "a") "TRUE" (.ofNat 2))
    vs ≠ [] ∧ e.platform.elements? (.array vs) = some vs ∧
      evaluate (.iterate .or none cs) (asking (.array vs)) e = (.ok .yes, e₂) ∧
      e.platform.elements? (.array []) = some [] ∧
      evaluate (.iterate .or (some true) cs) (asking (.array [])) e = (.ok .yes, e) ∧
      e.platform.elements? (.ofNat 1) = none ∧
      evaluate (.iterate .or none cs) (asking (.ofNat 1)) e =
        (.error (.notACollection "number"), e) := by
  intro cs vs e e₁ e₂
  have hne : vs ≠ [] := List.cons_ne_nil _ _
  have helements : e.platform.elements? (.array vs) = some vs := rfl
  obtain ⟨hscan, -⟩ := iterate_scans_elements .or none cs (asking (.array vs)) e
  obtain ⟨-, -, -, -, hempty, -⟩ := iterate_scans_elements .or (some true) cs (asking (.array [])) e
  obtain ⟨-, -, -, -, -, hnone⟩ := iterate_scans_elements .or none cs (asking (.ofNat 1)) e
  have hsecond : (vs.map fun w => e.within (.and cs) (.rebound w :: asking (.array vs))) =
      [e.within (.and cs) (.rebound (.ofNat 1) :: asking (.array vs))] ++
        e.within (.and cs) (.rebound (.ofNat 2) :: asking (.array vs)) ::
        [e.within (.and cs) (.rebound (.ofNat 3) :: asking (.array vs))] := rfl
  have hfirst : e.within (.and cs) (.rebound (.ofNat 1) :: asking (.array vs)) e = (.ok .no, e₁) :=
    rfl
  have hthen : e.within (.and cs) (.rebound (.ofNat 2) :: asking (.array vs)) e₁ = (.ok .yes, e₂) :=
    rfl
  have hrun := (hscan vs hne helements (.ok .yes) e₂).2
    (.settled hsecond (.cons hfirst (by decide) .nil) hthen)
  exact ⟨hne, helements, hrun, rfl, hempty rfl, rfl, hnone rfl⟩

end Engine

end Enablement
