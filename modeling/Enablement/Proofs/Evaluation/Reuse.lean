import Enablement.Proofs.Evaluation.Reads
/-!
# Evaluation — when an outcome can be used again

A host that keeps the outcome of a condition asks the access record whether a change can matter. For
the default variable the record answers this: if it does not say that the default variable is looked
at, the default variable does not matter. For named variables it does so only as long as the
standing of the variable stays the same, since a question about a variable also depends on whether
there is a value at all.
-/

namespace Enablement

namespace Context

/-- Two contexts differ in nothing but the default variable. -/
structure AlikeButDefault (c c' : Context) : Prop where
  binding : ∀ n, binding? n c = binding? n c'
  answer : ∀ n args, resolve n args c = resolve n args c'
  allowActivation : allowActivation c = allowActivation c'

/-- Two contexts differ in nothing but what they give for one variable. -/
structure AlikeBut (v : String) (c c' : Context) : Prop where
  defaultVariable : defaultVariable c = defaultVariable c'
  binding : ∀ n, n ≠ v → binding? n c = binding? n c'
  answer : ∀ n, n ≠ v → ∀ args, resolve n args c = resolve n args c'
  allowActivation : allowActivation c = allowActivation c'

/-- A variable has the same standing in two contexts: it is missing, undefined or bound in both, and
the resolvers refuse it in both for the same reason, or in neither. -/
structure SameStanding (v : String) (c c' : Context) : Prop where
  binding : standing v c = standing v c'
  answer : ∀ args, refusal v args c = refusal v args c'

variable {a : Access} {c c' : Context} {v : String}

/-- Contexts that differ in the default variable agree on what does not look at it. -/
theorem AlikeButDefault.agreeOn (h : AlikeButDefault c c') (ha : a.defaultVariable = false) :
    AgreeOn a c c' where
  defaultVariable hd := by
    rw [ha] at hd
    cases hd
  binding n _ := h.binding n
  answer n _ := h.answer n
  standing n := by rw [standing, standing, h.binding]
  refusal n args := by rw [refusal, refusal, h.answer]
  allowActivation := h.allowActivation

/-- Contexts that differ in one variable agree on what does not name it, if it has the same standing
in both. -/
theorem AlikeBut.agreeOn (h : AlikeBut v c c') (hs : SameStanding v c c')
    (ha : a.variableNames.contains v = false) : AgreeOn a c c' := by
  have hne : ∀ n, a.variableNames.contains n = true → n ≠ v := by
    rintro n hn rfl
    rw [ha] at hn
    cases hn
  refine ⟨fun _ => h.defaultVariable, fun n hn => h.binding n (hne n hn),
    fun n hn => h.answer n (hne n hn), fun n => ?_, fun n args => ?_, h.allowActivation⟩
  · by_cases hn : n = v
    · rw [hn]
      exact hs.binding
    · rw [standing, standing, h.binding n hn]
  · by_cases hn : n = v
    · rw [hn]
      exact hs.answer args
    · rw [refusal, refusal, h.answer n hn]

/-- Binding a variable in the innermost frame changes that variable alone. -/
theorem alikeBut_insert (v : String) (w : Value) (f : Frame) (c : Context) :
    AlikeBut v (.frame f :: c) (.frame { f with bindings := f.bindings.insert v w } :: c) where
  defaultVariable := rfl
  binding n hn := by
    rw [binding?, binding?, NameMap.find?_insert_of_ne hn]
  answer _ _ _ := rfl
  allowActivation := rfl

end Context

namespace Engine

open Context

variable {e₀ e : Engine} {v : String} {c c' : Context}

/-! ## The default variable -/

/-- **An expression that does not look at the default variable does the same whatever it is.** The
outcome or the fault, the questions to testers and the engine left behind are the same in contexts
that differ in the default variable alone. The record may stem from another state of the engine with
the same definitions. -/
theorem evaluate_eq_of_defaultVariable (hsame : e₀.SameDefinitions e)
    (hacyclic : e₀.DefinitionsAcyclic)
    (haccountable : ∀ id x, e₀.defined id = .ok x → x.accountable = true) {x : Expr}
    (hx : x.accountable = true) (haccess : (access x e₀).1.defaultVariable = false)
    (hc : AlikeButDefault c c') : evaluate x c e = evaluate x c' e :=
  (evaluate_readsOnly hacyclic haccountable x hx).same (hc.agreeOn haccess) e hsame

/-- An engine where `d` asks whether the default variable is true. -/
def oneDefinition : Engine :=
  { definitions := { expressions := .ofList [("d", .equals (.bool true))] } }

theorem oneDefinition_eq {id : String} {x : Expr} (h : oneDefinition.defined id = .ok x) :
    x = .equals (.bool true) :=
  eq_of_single rfl h

theorem oneDefinition_acyclic : oneDefinition.DefinitionsAcyclic := acyclic_of_single rfl rfl

/-- The definition is asked about a named variable, so the default variable does not matter. -/
theorem evaluate_withVariable_reference :
    evaluate (.withVariable "v" [.reference "d" true])
        [.frame { defaultVariable := .bool true, bindings := .ofList [("v", .bool false)] }]
        oneDefinition =
      evaluate (.withVariable "v" [.reference "d" true])
        [.frame { defaultVariable := .null, bindings := .ofList [("v", .bool false)] }]
        oneDefinition :=
  evaluate_eq_of_defaultVariable (.refl oneDefinition) oneDefinition_acyclic
    (fun _ _ hx => by rw [oneDefinition_eq hx]; rfl) rfl (by decide)
    ⟨fun _ => rfl, fun _ _ => rfl, rfl⟩

/-! ## Named variables -/

/-- A question about a variable over nothing tells the standing of the variable. -/
theorem evaluate_withVariable_nil (v : String) (c : Context) (e : Engine) :
    (evaluate (.withVariable v []) c e).1 = match standing v c with
      | none => .error (.variableNotDefined v)
      | some true => .ok .no
      | some false => .ok .yes := by
  have hmeaning : evaluate (.withVariable v []) c e = Meaning.withVariable v (.all []) c e := rfl
  rw [hmeaning, Meaning.withVariable, standing]
  cases binding? v c with
  | none => rfl
  | some w =>
    dsimp only [Option.map_some]
    cases w.isUndefined with
    | true => rfl
    | false => rfl

/-- A question about a computed variable over nothing tells its refusal. -/
theorem evaluate_resolve_nil (v : String) (args : List Value) (c : Context) (e : Engine) :
    (evaluate (.resolve v args []) c e).1 = match refusal v args c with
      | some f => .error f
      | none => .ok .yes := by
  have hmeaning : evaluate (.resolve v args []) c e = Meaning.resolve v args (.all []) c e := rfl
  rw [hmeaning, Meaning.resolve, refusal]
  rcases Context.resolve v args c with f | _ | w
  · rfl
  · rfl
  · rfl

/-- Neither names the variable in its access record. -/
theorem contains_access_withVariable_nil (v : String) (e : Engine) :
    (access (.withVariable v []) e).1.variableNames.contains v = false := rfl

theorem contains_access_resolve_nil (v : String) (args : List Value) (e : Engine) :
    (access (.resolve v args []) e).1.variableNames.contains v = false := rfl

/-- **A variable that no record names can still matter by its standing, and in no other way.** In
contexts that differ in one variable alone, all expressions whose access records do not name the
variable end alike exactly if it has the same standing in both. -/
theorem evaluate_fst_eq_iff_sameStanding (hsame : e₀.SameDefinitions e)
    (hacyclic : e₀.DefinitionsAcyclic)
    (haccountable : ∀ id x, e₀.defined id = .ok x → x.accountable = true)
    (hc : AlikeBut v c c') :
    (∀ x : Expr, x.accountable = true → (access x e₀).1.variableNames.contains v = false →
      (evaluate x c e).1 = (evaluate x c' e).1) ↔ SameStanding v c c' := by
  constructor
  · intro h
    -- questions over nothing tell the standing of the variable, and no record names it
    refine ⟨?_, fun args => ?_⟩
    · have heq := h (.withVariable v []) rfl (contains_access_withVariable_nil v e₀)
      rw [evaluate_withVariable_nil, evaluate_withVariable_nil] at heq
      revert heq
      rcases standing v c with _ | _ | _ <;> rcases standing v c' with _ | _ | _ <;> simp
    · have heq := h (.resolve v args []) rfl (contains_access_resolve_nil v args e₀)
      rw [evaluate_resolve_nil, evaluate_resolve_nil] at heq
      revert heq
      rcases refusal v args c with _ | f <;> rcases refusal v args c' with _ | f' <;> simp
  · intro hs x hx haccess
    have hreads := evaluate_readsOnly hacyclic haccountable x hx
    rw [hreads.same (hc.agreeOn hs haccess) e hsame]

/-- So the outcome of a question about a variable over nothing stands as long as there is a value.
-/
theorem evaluate_withVariable_bound :
    (evaluate (.withVariable "v" []) [.frame { bindings := .ofList [("v", .null)] }]
        oneDefinition).1 =
      (evaluate (.withVariable "v" [])
        [.frame { bindings := (NameMap.ofList [("v", .null)]).insert "v" (.bool true) }]
        oneDefinition).1 :=
  (evaluate_fst_eq_iff_sameStanding (.refl oneDefinition) oneDefinition_acyclic
    (fun _ _ hx => by rw [oneDefinition_eq hx]; rfl)
    (alikeBut_insert "v" (.bool true) { bindings := .ofList [("v", .null)] } [])).2
    ⟨rfl, fun _ => rfl⟩ (.withVariable "v" []) rfl rfl

/-- But its record does not name the variable, and it fails where there is none. -/
theorem evaluate_withVariable_unbound :
    AlikeBut "v" [.frame {}] [.frame { bindings := NameMap.insert {} "v" .null }] ∧
      (access (.withVariable "v" []) oneDefinition).1.variableNames = .empty ∧
      (evaluate (.withVariable "v" []) [.frame {}] oneDefinition).1 =
        .error (.variableNotDefined "v") ∧
      (evaluate (.withVariable "v" []) [.frame { bindings := NameMap.insert {} "v" .null }]
        oneDefinition).1 = .ok .yes :=
  ⟨alikeBut_insert "v" .null {} [], rfl, rfl, rfl⟩

end Engine

end Enablement
