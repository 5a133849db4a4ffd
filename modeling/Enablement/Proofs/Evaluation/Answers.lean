import Enablement.Proofs.Evaluation.Agreement
import Enablement.Proofs.Scope.Frames
/-!
# Evaluation — a context is what it answers

Two contexts that have the same default variable, bind and compute the same variables and give the
same permission are one context for evaluation (`Engine.evaluate_extensional`): whatever scopes they
are made of, evaluation in them is the same act, so that it has the same outcome, asks the same
questions and leaves the same engine. The scopes that only rebind the default variable are
interchangeable for it, wherever they are nested.
-/

namespace Enablement

namespace Context

variable {c c' c'' : Context} {s s' : Scope} {v : Value}

/-- Two contexts answer all that evaluation asks of a context alike. -/
structure AnswersAlike (c c' : Context) : Prop where
  defaultVariable : defaultVariable c = defaultVariable c'
  binding : ∀ name, binding? name c = binding? name c'
  answer : ∀ name args, resolve name args c = resolve name args c'
  allowActivation : allowActivation c = allowActivation c'

theorem AnswersAlike.refl (c : Context) : AnswersAlike c c :=
  ⟨rfl, fun _ => rfl, fun _ _ => rfl, rfl⟩

/-- Scopes that only rebind the default variable, to the same value, keep contexts alike. -/
theorem AnswersAlike.push (h : AnswersAlike c c') (hs : s.Plain) (hs' : s'.Plain)
    (hv : s.defaultVariable = s'.defaultVariable) : AnswersAlike (s :: c) (s' :: c') where
  defaultVariable := hv
  binding name := by rw [hs.binding, hs'.binding, h.binding]
  answer name args := by rw [hs.answer, hs'.answer, h.answer]
  allowActivation := by rw [hs.allowActivation, hs'.allowActivation, h.allowActivation]

end Context

namespace Meaning

variable {m : Meaning} {ms : List Meaning}

/-- A meaning that takes contexts as what they answer. -/
def Extensional (m : Meaning) : Prop := ∀ c c' : Context, c.AnswersAlike c' → m c = m c'

namespace Extensional

theorem map_eq (h : ∀ m ∈ ms, Extensional m) {c c' : Context} (hc : c.AnswersAlike c') :
    ms.map (· c) = ms.map (· c') :=
  List.map_congr_left fun m hm => h m hm c c' hc

theorem all (h : ∀ m ∈ ms, Extensional m) : Extensional (.all ms) := fun c c' hc => by
  rw [Meaning.all, Meaning.all, map_eq h hc]

theorem any (h : ∀ m ∈ ms, Extensional m) : Extensional (.any ms) := fun c c' hc => by
  rw [Meaning.any, Meaning.any, map_eq h hc]

theorem enablement (h : Extensional m) : Extensional (.enablement m) := fun c c' hc => by
  funext e
  rw [Meaning.enablement, Meaning.enablement, h c c' hc]

/-- What is asked under a scope that rebinds the default variable. -/
theorem under (h : Extensional m) {c c' : Context} (hc : c.AnswersAlike c') {s : Scope}
    (hs : s.Plain) : m (s :: c) = m (s :: c') :=
  h _ _ (hc.push hs hs rfl)

theorem withVariable (h : Extensional m) (name : String) : Extensional (.withVariable name m) := by
  intro c c' hc
  rw [Meaning.withVariable, Meaning.withVariable, hc.binding]
  cases Context.binding? name c' with
  | none => rfl
  | some v =>
    dsimp only
    rw [h.under hc (Context.plain_frame v)]

theorem resolve (h : Extensional m) (name : String) (args : List Value) :
    Extensional (.resolve name args m) := by
  intro c c' hc
  rw [Meaning.resolve, Meaning.resolve, hc.answer]
  rcases Context.resolve name args c' with fault | _ | v
  · rfl
  · rfl
  · exact h.under hc (Context.plain_frame v)

theorem adapt (h : Extensional m) (target : String) : Extensional (.adapt target m) := by
  intro c c' hc
  have hunder (v : Value) : m (.rebound v :: c) = m (.rebound v :: c') :=
    h.under hc (Context.plain_rebound v)
  simp only [Meaning.adapt, hc.defaultVariable, hunder]

theorem count (mode : CountMode) : Extensional (.count mode) := fun c c' hc => by
  rw [Meaning.count, Meaning.count, hc.defaultVariable]

theorem steps (h : Extensional m) (o : Connective) {c c' : Context} (hc : c.AnswersAlike c')
    (soFar : Truth) (vs : List Value) :
    Meaning.steps o m c soFar vs = Meaning.steps o m c' soFar vs := by
  induction vs generalizing soFar with
  | nil => rfl
  | cons v rest ih => simp only [Meaning.steps, h.under hc (Context.plain_stepping v rest), ih]

theorem iterate (h : Extensional m) (o : Connective) (ifEmpty : Option Bool) :
    Extensional (.iterate o ifEmpty m) := by
  intro c c' hc
  have hunder (v : Value) : m (.rebound v :: c) = m (.rebound v :: c') :=
    h.under hc (Context.plain_rebound v)
  simp only [Meaning.iterate, hc.defaultVariable, hunder, h.steps o hc]

theorem test (q : PropertyTest) : Extensional (.test q) := fun c c' hc => by
  rw [Meaning.test, Meaning.test, hc.defaultVariable, hc.allowActivation]

theorem instanceOf (t : String) : Extensional (.instanceOf t) := fun c c' hc => by
  rw [Meaning.instanceOf, Meaning.instanceOf, hc.defaultVariable]

theorem fixed (label : Option String) (outcome : String) : Extensional (.fixed label outcome) :=
  fun c c' hc => by rw [Meaning.fixed, Meaning.fixed, hc.defaultVariable]

end Extensional

end Meaning

namespace Expr

/-- **An expression takes contexts as what they answer**, if its references do. -/
theorem meaning_extensional {link : String → Meaning} (hlink : ∀ id, (link id).Extensional)
    (x : Expr) : (x.meaning link).Extensional := by
  induction x using inductionOn with
  | step x ih =>
  have hmap : ∀ {cs : List Expr}, (∀ c ∈ cs, (meaning link c).Extensional) →
      ∀ m ∈ meanings link cs, m.Extensional := by
    intro cs hcs
    rw [meanings_eq_map]
    exact List.forall_mem_map.2 hcs
  cases x with
  | and cs => exact .all (hmap ih)
  | or cs => exact .any (hmap ih)
  | not d =>
    intro c c' hc
    have hd := ih d List.mem_cons_self c c' hc
    simp only [meaning, hd]
  | enablement cs => exact (Meaning.Extensional.all (hmap ih)).enablement
  | withVariable name cs => exact (Meaning.Extensional.all (hmap ih)).withVariable name
  | resolve name args cs => exact (Meaning.Extensional.all (hmap ih)).resolve name args
  | adapt target cs => exact (Meaning.Extensional.all (hmap ih)).adapt target
  | iterate o ifEmpty cs => exact (Meaning.Extensional.all (hmap ih)).iterate o ifEmpty
  | count mode => exact .count mode
  | equals v =>
    intro c c' hc
    simp only [meaning, hc.defaultVariable]
  | systemTest property value => exact fun _ _ _ => rfl
  | test q => exact .test q
  | reference id linked => exact hlink id
  | instanceOf t => exact .instanceOf t
  | constant b => exact fun _ _ _ => rfl
  | fixed label outcome => exact .fixed label outcome
  | group o cs =>
    cases o with
    | and => exact .all (hmap ih)
    | or => exact .any (hmap ih)

end Expr

namespace ScopeTree

variable {t t' : ScopeTree} {k k' p : ℕ} {v : Value} {vs : List Value}

/-! ## Scopes that are alive -/

/-- A context is made of the entries up to its number. -/
theorem Nested.context_congr (ht : Nested t) (ht' : Nested t')
    (h : ∀ j ≤ k, t.entries[j]? = t'.entries[j]?) : t.context k = t'.context k := by
  induction k using Nat.strongRecOn with
  | ind k ih =>
  cases he : t.entries[k]? with
  | none => rw [context, context, ← h k (Nat.le_refl k), he]
  | some e =>
    rw [ht.context_eq he, ht'.context_eq ((h k (Nat.le_refl k)).symm.trans he)]
    cases hp : e.parent with
    | none => rfl
    | some p =>
      have hlt := ht.parent_lt he hp
      exact congrArg (e.scope :: ·)
        (ih p hlt fun j hj => h j (Nat.le_trans hj (Nat.le_of_lt hlt)))

/-- A new scope stands before the context of its parent. -/
theorem Nested.context_push (ht : Nested t) (hp : p < t.entries.length) (s : Scope) :
    (t.push (some p) s).1.context (t.push (some p) s).2 = s :: t.context p := by
  have hnested : Nested (t.push (some p) s).1 := ht.push (fun q hq => Option.some.inj hq ▸ hp) nofun
  have he : (t.push (some p) s).1.entries[t.entries.length]? =
      some ⟨some p, t.poolFor (some p) s, s⟩ := by
    rw [getElem?_push, if_neg (Nat.lt_irrefl _), if_pos rfl]
  refine (hnested.context_eq he).trans (congrArg (s :: ·) (hnested.context_congr ht fun j hj => ?_))
  rw [getElem?_push, if_pos (Nat.lt_of_le_of_lt hj hp)]

/-- The tree after a scope was stepped forward some times. -/
def advanced (k : ℕ) : (times : ℕ) → ScopeTree → ScopeTree
  | 0, t => t
  | times + 1, t => advanced k times (t.advance k).1

theorem Nested.advanced (ht : Nested t) (k n : ℕ) : Nested (t.advanced k n) := by
  induction n generalizing t with
  | zero => exact ht
  | succ n ih => exact ih (ht.advance k)

/-- Stepping forward binds the elements in order and leaves the other scopes as they are. -/
theorem getElem?_advanced {parent : Option ℕ} {pool : ℕ} {w : Value} {n : ℕ}
    (he : t.entries[k]? = some ⟨parent, pool, .stepping w vs⟩) (hv : vs[n]? = some v) (j : ℕ) :
    (t.advanced k (n + 1)).entries[j]? =
      if k = j then some ⟨parent, pool, .stepping v (vs.drop (n + 1))⟩ else t.entries[j]? := by
  induction n generalizing t w vs with
  | zero =>
    cases vs with
    | nil => cases hv
    | cons u vs =>
      cases hv
      rw [advanced, advanced, advance, he, getElem?_modify]
      split
      · next hk => rw [← hk, he]; rfl
      · rfl
  | succ n ih =>
    cases vs with
    | nil => cases hv
    | cons u vs =>
      have hstep (j : ℕ) : (t.advance k).1.entries[j]? =
          if k = j then some ⟨parent, pool, .stepping u vs⟩ else t.entries[j]? := by
        rw [advance, he, getElem?_modify]
        split
        · next hk => rw [← hk, he]; rfl
        · rfl
      rw [advanced, ih ((hstep k).trans (if_pos rfl)) hv, hstep j]
      split <;> rfl

/-- A scope that was stepped forward to a value stands before the context of its parent. -/
theorem Nested.context_advanced (ht : Nested t) (hp : p < t.entries.length) {n : ℕ}
    (hv : vs[n]? = some v) :
    ((t.push (some p) (.stepping .null vs)).1.advanced t.entries.length (n + 1)).context
      t.entries.length = .stepping v (vs.drop (n + 1)) :: t.context p := by
  have hpushed : Nested (t.push (some p) (.stepping .null vs)).1 :=
    ht.push (fun q hq => Option.some.inj hq ▸ hp) nofun
  have hnested := hpushed.advanced t.entries.length (n + 1)
  have he : (t.push (some p) (.stepping .null vs)).1.entries[t.entries.length]? =
      some ⟨some p, t.poolFor (some p) (.stepping .null vs), .stepping .null vs⟩ := by
    rw [getElem?_push, if_neg (Nat.lt_irrefl _), if_pos rfl]
  have hentries := getElem?_advanced he hv
  refine (hnested.context_eq ((hentries _).trans (if_pos rfl))).trans
    (congrArg (_ :: ·) (hnested.context_congr ht fun j hj => ?_))
  have hj := Nat.lt_of_le_of_lt hj hp
  rw [hentries, if_neg (Nat.ne_of_gt hj), getElem?_push, if_pos hj]

/-- Two scopes answer all that evaluation asks of a scope alike. -/
structure AnswersAlike (t : ScopeTree) (k : ℕ) (t' : ScopeTree) (k' : ℕ) : Prop where
  defaultVariable : Context.defaultVariable (t.context k) = Context.defaultVariable (t'.context k')
  binding : ∀ name, t.binding? k name = t'.binding? k' name
  answer : ∀ name args, t.resolve k name args = t'.resolve k' name args
  allowActivation : t.allowActivation k = t'.allowActivation k'

/-- The contexts of scopes that answer alike do so, too. -/
theorem AnswersAlike.context (h : AnswersAlike t k t' k') (ht : Live t) (ht' : Live t')
    (hk : k < t.entries.length) (hk' : k' < t'.entries.length) :
    (t.context k).AnswersAlike (t'.context k') := by
  obtain ⟨hbinding, hanswer, hallow⟩ := ht.context_reads hk
  obtain ⟨hbinding', hanswer', hallow'⟩ := ht'.context_reads hk'
  exact {
    defaultVariable := h.defaultVariable
    binding := fun name => by rw [hbinding, hbinding', h.binding]
    answer := fun name args => by rw [hanswer, hanswer', h.answer]
    allowActivation := by rw [hallow, hallow', h.allowActivation] }

end ScopeTree

namespace Engine

theorem linkWithin_extensional (depth : ℕ) (id : String) : (linkWithin depth id).Extensional := by
  induction depth generalizing id with
  | zero => exact fun _ _ _ => rfl
  | succ depth ih =>
    intro c c' hc
    have hmeaning (x : Expr) : x.meaning (linkWithin depth) c = x.meaning (linkWithin depth) c' :=
      x.meaning_extensional ih c c' hc
    simp only [linkWithin, hmeaning]

theorem evaluate_eq_of_answersAlike (x : Expr) {c c' : Context} (hc : c.AnswersAlike c') :
    evaluate x c = evaluate x c' := by
  funext e
  rw [evaluate, evaluate, x.meaning_extensional (linkWithin_extensional _) c c' hc]

/-- **Evaluation depends on a context through its answers only.** In contexts that answer alike,
and so in live scopes that do, whatever scopes they are and whatever they are nested in, every
expression is the same act of the engine: it has the same outcome, asks the same questions and
leaves the same engine. In particular a scope that rebinds the default variable once, a frame with
nothing in it, and a scope that was stepped forward to the value do the same under any parent. -/
theorem evaluate_extensional (x : Expr) :
    (∀ c c' : Context, c.AnswersAlike c' → evaluate x c = evaluate x c') ∧
    (∀ (t t' : ScopeTree) (k k' : ℕ), t.Live → t'.Live → k < t.entries.length →
      k' < t'.entries.length → t.AnswersAlike k t' k' →
        evaluate x (t.context k) = evaluate x (t'.context k')) ∧
    ∀ (t : ScopeTree) (p : ℕ) (v : Value), t.Live → p < t.entries.length →
      let own := t.push (some p) (.frame { defaultVariable := v })
      let once := t.push (some p) (.rebound v)
      evaluate x (once.1.context once.2) = evaluate x (own.1.context own.2) ∧
      ∀ (vs : List Value) (n : ℕ), vs[n]? = some v →
        let pool := t.push (some p) (.stepping .null vs)
        evaluate x ((pool.1.advanced pool.2 (n + 1)).context pool.2) =
          evaluate x (own.1.context own.2) := by
  refine ⟨fun c c' => evaluate_eq_of_answersAlike x, fun t t' k k' ht ht' hk hk' h =>
    evaluate_eq_of_answersAlike x (h.context ht ht' hk hk'), ?_⟩
  intro t p v ht hp own once
  have hnested := ht.isNested
  have hown : own.1.context own.2 = _ := hnested.context_push hp _
  have honce : once.1.context once.2 = _ := hnested.context_push hp _
  have halike := Context.AnswersAlike.refl (t.context p)
  refine ⟨?_, fun vs n hv => ?_⟩
  · rw [hown, honce]
    exact evaluate_eq_of_answersAlike x
      (halike.push (Context.plain_rebound v) (Context.plain_frame v) rfl)
  · rw [hown]
    refine (congrArg (evaluate x) (hnested.context_advanced hp hv)).trans ?_
    exact evaluate_eq_of_answersAlike x
      (halike.push (Context.plain_stepping v _) (Context.plain_frame v) rfl)

/-- In a frame that binds a variable, the second element of a list is asked about as if it were
bound by a frame of its own. -/
theorem evaluate_extensional_second :
    let x := Expr.and [.equals (.ofNat 2), .withVariable "x" [.equals .null, .reference "d" true]]
    let t := (({} : ScopeTree).push none (.frame { bindings := .ofList [("x", .null)] })).1
    let own := t.push (some 0) (.frame { defaultVariable := .ofNat 2 })
    let pool := t.push (some 0) (.stepping .null [.ofNat 1, .ofNat 2, .ofNat 3])
    evaluate x ((pool.1.advanced pool.2 2).context pool.2) = evaluate x (own.1.context own.2) := by
  intro x
  obtain ⟨-, -, hscopes⟩ := evaluate_extensional x
  obtain ⟨-, hpool⟩ := hscopes _ 0 (.ofNat 2)
    (ScopeTree.Live.empty.root { bindings := .ofList [("x", .null)] }) Nat.one_pos
  exact hpool [.ofNat 1, .ofNat 2, .ofNat 3] 1 rfl

end Engine

end Enablement
