import Enablement.Proofs.Access.Laws
import Enablement.Proofs.Evaluation.Keeps
/-!
# Evaluation — contexts that agree on what is looked at

Two contexts agree on an access record when they give the same values for all that it names
(`Context.AgreeOn`). A question that is asked about a variable ends by itself where the variable is
missing, undefined or refused, and this it does also when nothing looks at the value; so contexts
that agree have all variables in the same standing. What only reads an access record does the same
in contexts that agree on it (`Meaning.ReadsOnly`).
-/

namespace Enablement

/-! ## Records within records -/

namespace Access

/-- What a record says about variables, another one says, too. -/
structure Within (b a : Access) : Prop where
  defaultVariable : b.defaultVariable = true → a.defaultVariable = true
  variableNames : ∀ n, b.variableNames.contains n = true → a.variableNames.contains n = true

variable {a b c : Access}

theorem Within.trans (h : c.Within b) (h' : b.Within a) : c.Within a :=
  ⟨fun hd => h'.defaultVariable (h.defaultVariable hd),
    fun n hn => h'.variableNames n (h.variableNames n hn)⟩

theorem within_merge_left (a b : Access) : a.Within (a.merge b) := by
  refine ⟨fun h => ?_, fun n h => ?_⟩
  · rw [merge, h, Bool.true_or]
  · simp only [merge, mergeExceptDefault, NameSet.contains_union, h, Bool.true_or]

theorem within_merge_right (a b : Access) : b.Within (a.merge b) := by
  refine ⟨fun h => ?_, fun n h => ?_⟩
  · rw [merge, h, Bool.or_true]
  · simp only [merge, mergeExceptDefault, NameSet.contains_union, h, Bool.or_true]

/-- A part that is asked about a named variable leaves its variables in the record. -/
theorem contains_mergeRebound (n m : String) (b : Access) :
    (mergeRebound {} n b).variableNames.contains m =
      ((b.defaultVariable && m == n) || b.variableNames.contains m) := by
  rw [mergeRebound]
  cases b.defaultVariable with
  | false => simp [mergeExceptDefault]
  | true => simp [mergeExceptDefault, addVariable, NameSet.contains_insert]

end Access

/-! ## Contexts that agree -/

/-- A scope that rebinds the default variable and nothing else. -/
structure Scope.Plain (s : Scope) : Prop where
  binding : ∀ n c, Context.binding? n (s :: c) = Context.binding? n c
  answer : ∀ n args c, Context.resolve n args (s :: c) = Context.resolve n args c
  allowActivation : ∀ c, Context.allowActivation (s :: c) = Context.allowActivation c

namespace Context

/-- What has to be known of a variable to go on with it: whether it is bound, and to a value. -/
def standing (name : String) (c : Context) : Option Bool := (binding? name c).map Value.isUndefined

/-- The fault that a computed variable ends with, if there is no value. -/
def refusal (name : String) (args : List Value) (c : Context) : Option Fault :=
  match resolve name args c with
  | .ok (some _) => none
  | .ok none => some (.variableNotResolved name)
  | .error f => some f

/-- Without a refusal there is a value. -/
theorem refusal_eq_none {name : String} {args : List Value} {c : Context} :
    refusal name args c = none ↔ ∃ v, resolve name args c = .ok (some v) := by
  rw [refusal]
  rcases resolve name args c with f | _ | v
  · simp
  · simp
  · simp

/-- Two contexts give the same for all that a record names, and differ nowhere in the standing of a
variable. -/
structure AgreeOn (a : Access) (c c' : Context) : Prop where
  defaultVariable : a.defaultVariable = true → defaultVariable c = defaultVariable c'
  binding : ∀ n, a.variableNames.contains n = true → binding? n c = binding? n c'
  answer : ∀ n, a.variableNames.contains n = true → ∀ args, resolve n args c = resolve n args c'
  standing : ∀ n, standing n c = standing n c'
  refusal : ∀ n args, refusal n args c = refusal n args c'
  allowActivation : allowActivation c = allowActivation c'

variable {a b : Access} {c c' : Context} {s s' : Scope}

theorem AgreeOn.mono (h : AgreeOn a c c') (hb : b.Within a) : AgreeOn b c c' :=
  { h with
    defaultVariable := fun hd => h.defaultVariable (hb.defaultVariable hd)
    binding := fun n hn => h.binding n (hb.variableNames n hn)
    answer := fun n hn => h.answer n (hb.variableNames n hn) }

theorem plain_frame (v : Value) : Scope.Plain (.frame { defaultVariable := v }) :=
  ⟨fun _ _ => rfl, fun _ _ _ => rfl, fun _ => rfl⟩

theorem plain_rebound (v : Value) : Scope.Plain (.rebound v) :=
  ⟨fun _ _ => rfl, fun _ _ _ => rfl, fun _ => rfl⟩

theorem plain_stepping (v : Value) (rest : List Value) : Scope.Plain (.stepping v rest) :=
  ⟨fun _ _ => rfl, fun _ _ _ => rfl, fun _ => rfl⟩

/-- **Under scopes that rebind the default variable, contexts agree on what names no others**, if
the scopes give the same where the default variable is looked at. -/
theorem AgreeOn.push (h : AgreeOn a c c') (hs : s.Plain) (hs' : s'.Plain)
    (hnames : ∀ n, b.variableNames.contains n = true → a.variableNames.contains n = true)
    (hdefault : b.defaultVariable = true → s.defaultVariable = s'.defaultVariable) :
    AgreeOn b (s :: c) (s' :: c') where
  defaultVariable := hdefault
  binding n hn := by rw [hs.binding, hs'.binding, h.binding n (hnames n hn)]
  answer n hn args := by rw [hs.answer, hs'.answer, h.answer n (hnames n hn)]
  standing n := by
    have hn := h.standing n
    rw [Context.standing, Context.standing] at hn ⊢
    rw [hs.binding, hs'.binding, hn]
  refusal n args := by
    have hn := h.refusal n args
    rw [Context.refusal, Context.refusal] at hn ⊢
    rw [hs.answer, hs'.answer, hn]
  allowActivation := by rw [hs.allowActivation, hs'.allowActivation, h.allowActivation]

end Context

end Enablement
