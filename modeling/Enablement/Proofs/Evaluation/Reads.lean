import Enablement.Proofs.Access.Looks
import Enablement.Proofs.Evaluation.Agreement
/-!
# Evaluation — what it reads

The evaluation of an expression reads what its access record says, and beyond that only the standing
of variables: in contexts that agree on the record it ends alike and leaves the same engine behind.
This is shown question by question, where a part that is asked about another default variable may
look at it freely, and then for all expressions by induction over the children. References are
followed to a depth, so for them the induction is on the depth.
-/

namespace Enablement

open Context

/-- A meaning does the same in contexts that agree on a record, and keeps the property of engines
under which it does. -/
structure Meaning.ReadsOnly (P : Engine → Prop) (a : Access) (m : Meaning) : Prop where
  keeps : m.Keeps P
  same : ∀ {c c'}, AgreeOn a c c' → Act.SameOn P (m c) (m c')

variable {P : Engine → Prop} {a b : Access} {c c' : Context}

/-! ## Combining outcomes -/

namespace Act

variable {ms : List Meaning}

/-- Acts that do the same do so one after another, if they keep the property. -/
theorem SameOn.joinUntil {xs ys : List (Act Truth)} (h : List.Forall₂ (SameOn P) xs ys)
    (hk : ∀ x ∈ xs, Keeps P x) (o : Connective) (t : Truth) :
    SameOn P (Act.joinUntil o t xs) (Act.joinUntil o t ys) := by
  induction h generalizing t with
  | nil => exact .refl _
  | cons hxy _ ih =>
    obtain ⟨hx, hxs⟩ := List.forall_mem_cons.1 hk
    exact hxy.bind hx fun u => .ite (.refl _) (ih hxs _)

/-- Meanings that do the same in two contexts do so one after another. -/
theorem SameOn.joinUntil_map (hk : ∀ m ∈ ms, Keeps P (m c)) (h : ∀ m ∈ ms, SameOn P (m c) (m c'))
    (o : Connective) (t : Truth) :
    SameOn P (Act.joinUntil o t (ms.map (· c))) (Act.joinUntil o t (ms.map (· c'))) := by
  refine .joinUntil ?_ (List.forall_mem_map.2 hk) o t
  exact List.forall₂_map_left_iff.2 (List.forall₂_map_right_iff.2 (List.forall₂_same.2 h))

end Act

/-! ## How a variable decides -/

namespace Meaning

variable {name : String} {args : List Value} {m : Meaning}

/-- A question about a variable that is bound to a value. -/
theorem withVariable_of_binding {v : Value} (h : binding? name c = some v)
    (hv : v.isUndefined = false) :
    Meaning.withVariable name m c = m (.frame { defaultVariable := v } :: c) := by
  rw [Meaning.withVariable, h]
  dsimp only
  rw [hv]
  rfl

/-- Otherwise it ends by the standing of the variable. -/
theorem withVariable_of_standing (h : standing name c ≠ some false) :
    Meaning.withVariable name m c =
      if standing name c = none then Act.fail (.variableNotDefined name) else pure .no := by
  rw [Meaning.withVariable]
  rw [standing] at h ⊢
  cases hb : binding? name c with
  | none => rfl
  | some v =>
    rw [hb] at h
    dsimp only
    cases hv : v.isUndefined with
    | true => rfl
    | false => exact absurd (congrArg some hv) h

/-- A question about a computed variable that has a value. -/
theorem resolve_of_answer {v : Value} (h : Context.resolve name args c = .ok (some v)) :
    Meaning.resolve name args m c = m (.frame { defaultVariable := v } :: c) := by
  rw [Meaning.resolve, h]

/-- Otherwise it ends with the refusal. -/
theorem resolve_of_refusal {f : Fault} (h : refusal name args c = some f) :
    Meaning.resolve name args m c = Act.fail f := by
  rw [refusal] at h
  rw [Meaning.resolve]
  rcases hr : Context.resolve name args c with f' | _ | v
  · rw [hr] at h
    rw [Option.some.inj h]
  · rw [hr] at h
    rw [← Option.some.inj h]
  · rw [hr] at h
    cases h

end Meaning

namespace Meaning.ReadsOnly

variable {m : Meaning} {ms : List Meaning}

theorem mono (h : ReadsOnly P b m) (hb : b.Within a) : ReadsOnly P a m :=
  ⟨h.keeps, fun hc => h.same (hc.mono hb)⟩

theorem all (h : ∀ m ∈ ms, ReadsOnly P a m) : ReadsOnly P a (.all ms) := by
  refine ⟨fun c => .all fun m hm => (h m hm).keeps c, fun hc => ?_⟩
  rw [Meaning.all, Meaning.all, Act.allOf_eq_joinUntil, Act.allOf_eq_joinUntil]
  exact .joinUntil_map (fun m hm => (h m hm).keeps _) (fun m hm => (h m hm).same hc) .and .yes

theorem any (h : ∀ m ∈ ms, ReadsOnly P a m) : ReadsOnly P a (.any ms) := by
  refine ⟨fun c => .any fun m hm => (h m hm).keeps c, fun hc => ?_⟩
  rw [Meaning.any, Meaning.any, Act.anyOf_eq_joinUntil, Act.anyOf_eq_joinUntil]
  exact .ite (.refl _)
    (.joinUntil_map (fun m hm => (h m hm).keeps _) (fun m hm => (h m hm).same hc) .or .no)

theorem not (h : ReadsOnly P a m) : ReadsOnly P a (fun c => do return (← m c).not) :=
  ⟨fun c => (h.keeps c).bind fun _ => .pure _,
    fun hc => (h.same hc).bind (h.keeps _) fun _ => .refl _⟩

theorem enablement (hP : Steady P) (h : ReadsOnly P a m) : ReadsOnly P a (.enablement m) := by
  refine ⟨fun c => .enablement (fun e n => hP.record e (.noted n) rfl) (h.keeps c),
    fun hc e he => ?_⟩
  rw [Meaning.enablement, h.same hc e he]
  rfl

/-- What does not look at its context reads nothing. -/
theorem of_const {x : Act Truth} (hk : Act.Keeps P x) : ReadsOnly P a (fun _ => x) :=
  ⟨fun _ => hk, fun _ => .refl x⟩

/-! ## Asking about another default variable -/

/-- A part that is asked about a variable does the same where the variable is not looked at, or has
the same value. -/
theorem named {name : String} (h : ReadsOnly P b m) (hc : AgreeOn (.mergeRebound {} name b) c c')
    {v v' : Value}
    (hv : (Access.mergeRebound {} name b).variableNames.contains name = true → v = v') :
    Act.SameOn P (m (.frame { defaultVariable := v } :: c))
      (m (.frame { defaultVariable := v' } :: c')) := by
  refine h.same (hc.push (plain_frame v) (plain_frame v') (fun n hn => ?_) fun hd => hv ?_)
  · rw [Access.contains_mergeRebound, hn, Bool.or_true]
  · rw [Access.contains_mergeRebound, hd, beq_self_eq_true, Bool.and_self, Bool.true_or]

/-- **A named variable.** The question ends by the standing of the variable, or it is asked about
its value, which is read if the part looks at its default variable. -/
theorem withVariable (h : ReadsOnly P b m) (name : String) :
    ReadsOnly P (.mergeRebound {} name b) (.withVariable name m) := by
  refine ⟨fun c => .withVariable (fun _ => h.keeps _) name, fun {c c'} hc => ?_⟩
  have hstanding := hc.standing name
  by_cases hs : standing name c = some false
  · have hs' := hs
    rw [hstanding] at hs'
    obtain ⟨v, hb, hv⟩ := Option.map_eq_some_iff.1 hs
    obtain ⟨v', hb', hv'⟩ := Option.map_eq_some_iff.1 hs'
    rw [Meaning.withVariable_of_binding hb hv, Meaning.withVariable_of_binding hb' hv']
    refine h.named hc fun hname => ?_
    have heq := hc.binding name hname
    rw [hb, hb'] at heq
    exact Option.some.inj heq
  · have hs' := hs
    rw [hstanding] at hs'
    rw [Meaning.withVariable_of_standing hs, Meaning.withVariable_of_standing hs', hstanding]
    exact .refl _

/-- **A computed variable.** The question ends with the refusal, or it is asked about the value. -/
theorem resolve (h : ReadsOnly P b m) (name : String) (args : List Value) :
    ReadsOnly P (.mergeRebound {} name b) (.resolve name args m) := by
  refine ⟨fun c => .resolve (fun _ => h.keeps _) name args, fun {c c'} hc => ?_⟩
  have hrefusal := hc.refusal name args
  cases hf : refusal name args c with
  | some f =>
    have hf' := hf
    rw [hrefusal] at hf'
    rw [Meaning.resolve_of_refusal hf, Meaning.resolve_of_refusal hf']
    exact .refl _
  | none =>
    have hf' := hf
    rw [hrefusal] at hf'
    obtain ⟨v, hr⟩ := refusal_eq_none.1 hf
    obtain ⟨v', hr'⟩ := refusal_eq_none.1 hf'
    rw [Meaning.resolve_of_answer hr, Meaning.resolve_of_answer hr']
    refine h.named hc fun hname => ?_
    have heq := hc.answer name hname args
    rw [hr, hr'] at heq
    exact Option.some.inj (Except.ok.inj heq)

/-- A part that is asked about a value goes by that value, in whichever context. -/
theorem rebound (h : ReadsOnly P b m) (hc : AgreeOn a c c') (hb : b.Within a) {s : Scope}
    (hs : s.Plain) : Act.SameOn P (m (s :: c)) (m (s :: c')) :=
  h.same (hc.push hs hs hb.variableNames fun _ => rfl)

variable (target : String)

/-- **Another type.** The default variable is read to be adapted. -/
theorem adapt (h : ReadsOnly P b m) :
    ReadsOnly P ((Access.markDefault {}).merge b) (.adapt target m) := by
  refine ⟨fun c => .adapt (fun _ => h.keeps _) target, fun {c c'} hc => ?_⟩
  have hd := hc.defaultVariable rfl
  rw [Meaning.adapt, Meaning.adapt, hd]
  have hb := Access.within_merge_right (Access.markDefault {}) b
  refine Act.SameOn.bind (.refl _) (.read _) fun p => ?_
  refine .ite (h.rebound hc hb (plain_rebound _)) (.ite (.refl _) ?_)
  split
  · exact h.rebound hc hb (plain_rebound _)
  · exact .refl _

/-- One element after another is asked about in contexts that agree. -/
theorem steps (h : ReadsOnly P b m) (hc : AgreeOn a c c') (hb : b.Within a)
    (connective : Connective) (t : Truth) (vs : List Value) :
    Act.SameOn P (Meaning.steps connective m c t vs) (Meaning.steps connective m c' t vs) := by
  rw [Meaning.steps_eq_joinUntil, Meaning.steps_eq_joinUntil]
  refine .joinUntil (Meaning.forall₂_stepActs (fun v rest => ?_) vs) (fun x hx => ?_) connective t
  · exact h.rebound hc hb (plain_stepping v rest)
  · obtain ⟨v, rest, rfl⟩ := Meaning.exists_of_mem_stepActs hx
    exact h.keeps _

/-- **The elements of the default variable**, which is read for them. -/
theorem iterate (h : ReadsOnly P b m) (connective : Connective) (ifEmpty : Option Bool) :
    ReadsOnly P ((Access.markDefault {}).merge b) (.iterate connective ifEmpty m) := by
  refine ⟨fun c => .iterate (fun _ => h.keeps _) (fun _ _ => h.keeps _) connective ifEmpty,
    fun {c c'} hc => ?_⟩
  have hd := hc.defaultVariable rfl
  rw [Meaning.iterate, Meaning.iterate, hd]
  have hb := Access.within_merge_right (Access.markDefault {}) b
  refine Act.SameOn.bind (.refl _) (.read _) fun p => ?_
  refine Act.SameOn.bind (.refl _) (.ofExcept _) fun vs => ?_
  split
  · exact .refl _
  · exact .refl _
  · exact h.rebound hc hb (plain_rebound _)
  · exact h.steps hc hb connective _ _

/-! ## Asking about the default variable -/

/-- What asks about the default variable alone reads it. -/
theorem of_default (hk : m.Keeps P)
    (h : ∀ c c', defaultVariable c = defaultVariable c' →
      allowActivation c = allowActivation c' → m c = m c') :
    ReadsOnly P (.markDefault {}) m :=
  ⟨hk, fun hc e _ => congrFun (h _ _ (hc.defaultVariable rfl) hc.allowActivation) e⟩

theorem count (mode : CountMode) : ReadsOnly P (.markDefault {}) (.count mode) := by
  refine .of_default (.count mode) fun c c' hd _ => ?_
  unfold Meaning.count
  rw [hd]

theorem equals (v : Value) :
    ReadsOnly P (.markDefault {}) fun c => pure (.ofBool (v == defaultVariable c)) :=
  .of_default (fun _ => .pure _) fun c c' hd _ => by rw [hd]

theorem test (hP : Steady P) (q : PropertyTest) : ReadsOnly P (.markDefault {}) (.test q) := by
  refine .of_default (fun _ => .test hP.record (hP.resolve _ _ _ _)) fun c c' hd ha => ?_
  unfold Meaning.test
  rw [hd, ha]

theorem instanceOf (t : String) : ReadsOnly P (.markDefault {}) (.instanceOf t) := by
  refine .of_default (.instanceOf t) fun c c' hd _ => ?_
  unfold Meaning.instanceOf
  rw [hd]

end Meaning.ReadsOnly

/-! ## Expressions -/

namespace Expr

variable {link : String → Access} {refer : String → Meaning}

/-- What one of several expressions looks at is within what they look at together. -/
theorem looks_within_looksAll {x : Expr} {cs : List Expr} (hx : x ∈ cs) :
    (x.looks link).Within (looksAll link cs) := by
  induction cs with
  | nil => cases hx
  | cons c cs ih =>
    rw [looksAll]
    rcases List.mem_cons.1 hx with rfl | hx
    · exact Access.within_merge_left _ _
    · exact (ih hx).trans (Access.within_merge_right _ _)

/-- **An accountable expression reads what it looks at**, if its references do. -/
theorem meaning_readsOnly (hP : Steady P) (hrefer : ∀ id, (refer id).ReadsOnly P (link id))
    (x : Expr) (hx : x.accountable = true) : (x.meaning refer).ReadsOnly P (x.looks link) := by
  induction x using Expr.inductionOn with
  | step x ih =>
  have hchild : ∀ c ∈ x.children, (c.meaning refer).ReadsOnly P (c.looks link) := fun c hc =>
    ih c hc (accountable_of_mem_children hc hx)
  have hmap : ∀ {cs : List Expr}, (∀ c ∈ cs, (c.meaning refer).ReadsOnly P (c.looks link)) →
      ∀ m ∈ meanings refer cs, m.ReadsOnly P (looksAll link cs) := by
    intro cs hcs m hm
    rw [meanings_eq_map] at hm
    obtain ⟨c, hc, rfl⟩ := List.mem_map.1 hm
    exact (hcs c hc).mono (looks_within_looksAll hc)
  cases x with
  | and cs => exact .all (hmap hchild)
  | or cs => exact .any (hmap hchild)
  | not c => exact .not (hchild c List.mem_cons_self)
  | enablement cs => exact .enablement hP (.all (hmap hchild))
  | withVariable name cs => exact .withVariable (.all (hmap hchild)) name
  | resolve name args cs => exact .resolve (.all (hmap hchild)) name args
  | adapt target cs => exact .adapt target (.all (hmap hchild))
  | iterate connective ifEmpty cs => exact .iterate (.all (hmap hchild)) connective ifEmpty
  | count mode => exact .count mode
  | equals v => exact .equals v
  | systemTest property value => exact .of_const (Act.Keeps.systemTest property value [])
  | test q => exact (Meaning.ReadsOnly.test hP q).mono ⟨fun _ => rfl, fun _ h => nomatch h⟩
  | reference id linked =>
    cases linked with
    | true => exact hrefer id
    | false => simp [accountable, leaves] at hx
  | instanceOf t => exact .instanceOf t
  | constant b => exact .of_const (.pure _)
  | fixed label outcome => simp [accountable, leaves] at hx
  | group connective cs =>
    cases connective with
    | and => exact .all (hmap hchild)
    | or => exact .any (hmap hchild)

end Expr

/-! ## References -/

namespace Engine

/-- Lookups, definitions and events keep names defined as they are; so a reference reads what its
definition looks at, however deep definitions may be entered. -/
theorem linkWithin_readsOnly {e₀ : Engine} (hacyclic : e₀.DefinitionsAcyclic)
    (haccountable : ∀ id x, e₀.defined id = .ok x → x.accountable = true) (depth : Nat)
    (id : String) :
    (linkWithin depth id).ReadsOnly e₀.SameDefinitions (e₀.looksOf id) := by
  have hsteady := steady_sameDefinitions e₀
  induction depth generalizing id with
  | zero => exact ⟨linkWithin_keeps hsteady 0 id, fun _ => .refl _⟩
  | succ depth ih =>
    refine ⟨linkWithin_keeps hsteady _ id, fun {c c'} hc => ?_⟩
    -- in both contexts the definition is asked for first, with the same end
    refine Act.SameOn.bind_of_results (.refl _) (hsteady.definition id) fun e x he hend => ?_
    have hx := he.defined_of_definition hend
    have hreads := x.meaning_readsOnly hsteady ih (haccountable id x hx)
    rw [← hacyclic.looksOf_eq hx] at hreads
    exact hreads.same hc

/-- **Evaluation reads what the access record says.** The record may have been collected in another
engine with the same definitions. -/
theorem evaluate_readsOnly {e₀ : Engine} (hacyclic : e₀.DefinitionsAcyclic)
    (haccountable : ∀ id x, e₀.defined id = .ok x → x.accountable = true) (x : Expr)
    (hx : x.accountable = true) :
    (evaluate x).ReadsOnly e₀.SameDefinitions (access x e₀).1 := by
  have hsteady := steady_sameDefinitions e₀
  refine ⟨evaluate_keeps hsteady x, fun hc e he => ?_⟩
  rw [access_fst] at hc
  exact (x.meaning_readsOnly hsteady (linkWithin_readsOnly hacyclic haccountable _) hx).same hc e he

end Engine

end Enablement
