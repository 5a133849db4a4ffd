import Enablement.Proofs.Definitions
import Enablement.Proofs.Evaluation.Abreast
import Enablement.Proofs.Registry.Blind
/-!
# Evaluation — definitions that have been converted

A definition is converted when it is first asked for. Asking for one that converts leaves no trace
but that it has been converted (`Engine.definition_of_ok`), and one that does not convert is
attempted again each time. So engines that differ in nothing else (`Engine.SameButConverted`) cannot
be told apart: lookups do not see definitions, and a definition is the same for both. References
then go abreast with themselves, however deep definitions may be entered, if it is deep enough
(`Engine.linkWithin_abreast`).
-/

namespace Enablement

namespace Engine

open Act

variable {e₀ e e' : Engine} {id : String} {d : Expr}

/-- What is converted for a definition gives the definition. -/
theorem convert_of_pending {n : Node} (h : e.defined id = .ok d) (hn : pending? id e = some n) :
    e.converter.convert n = .ok d := by
  rw [pending?] at hn
  rw [defined] at h
  cases hx : e.definitions.expressions.find? id with
  | some x =>
    rw [hx] at hn
    cases hn
  | none =>
    cases he : e.definitions.elements.find? id with
    | none =>
      rw [hx, he] at hn
      cases hn
    | some element =>
      rw [hx, he] at hn
      rw [Definitions.expression_of_element hx he, Definitions.convertElement] at h
      dsimp only at h hn
      cases hchildren : element.children with
      | nil =>
        rw [hchildren] at hn
        cases hn
      | cons child rest =>
        rw [hchildren] at h hn
        cases hn
        exact h

/-- Asking for a definition ends with it, and leaves the log line of what had to be converted. -/
theorem definition_apply (id : String) (e : Engine) :
    definition id e = (e.defined id, (match pending? id e with
      | some n => noteConversion n (e.converter.convert? n) e
      | none => e).withDefinitions (e.definitions.expression e.converter id).2) := rfl

/-- What converts has no element that no handler knows. -/
theorem unhandled?_of_convert {c : Converter} {n : Node} (h : c.convert n = .ok d) :
    Converter.unhandled? n (c.convert? n) = none := by
  rw [Converter.convert] at h
  rcases hn : c.convert? n with f | _ | x
  · rw [hn] at h
    cases h
  · rw [hn] at h
    cases h
  · rfl

/-- **Asking for a definition that converts leaves no log line.** -/
theorem definition_of_ok (h : e.defined id = .ok d) :
    definition id e = (.ok d, e.withDefinitions (e.definitions.expression e.converter id).2) := by
  have hnoted : (match pending? id e with
      | some n => noteConversion n (e.converter.convert? n) e
      | none => e) = e := by
    cases hpending : pending? id e with
    | none => rfl
    | some n =>
      dsimp only
      rw [noteConversion, unhandled?_of_convert (convert_of_pending h hpending)]
  rw [definition_apply, hnoted, h]

/-- One that does not convert has no expression. -/
theorem find?_of_error {f : Fault} (h : e.defined id = .error f) :
    e.definitions.expressions.find? id = none := by
  cases hx : e.definitions.expressions.find? id with
  | none => rfl
  | some x =>
    rw [defined, Definitions.expression_of_find? hx] at h
    cases h

/-- Two engines that differ in nothing but in which definitions have been converted, where names are
defined as in a given engine. -/
structure SameButConverted (e₀ e e' : Engine) : Prop where
  rest : e' = e.withDefinitions e'.definitions
  elements : e'.definitions.elements = e.definitions.elements
  left : e₀.SameDefinitions e
  right : e₀.SameDefinitions e'

namespace SameButConverted

theorem refl (h : e₀.SameDefinitions e) : e₀.SameButConverted e e := ⟨rfl, rfl, h, h⟩

/-- Evaluation cannot tell them apart by itself. -/
theorem likeness (e₀ : Engine) : Likeness e₀.SameButConverted where
  platform e e' h := by rw [h.rest]; rfl
  options e e' h := by rw [h.rest]; rfl
  record e e' ev hev h := by
    refine ⟨?_, h.elements, (steady_sameDefinitions e₀).record e ev hev h.left,
      (steady_sameDefinitions e₀).record e' ev hev h.right⟩
    conv_lhs => rw [h.rest]
    rfl

/-- One of them may convert a definition more. -/
theorem entered (h : e₀.SameButConverted e e') (hd : e₀.defined id = .ok d) :
    definition id e = (.ok d, (definition id e).2) ∧
      e₀.SameButConverted (definition id e).2 e' := by
  have hrun := definition_of_ok ((h.left.defined id).trans hd)
  have hleft := (steady_sameDefinitions e₀).definition id e h.left
  rw [hrun] at hleft ⊢
  refine ⟨rfl, h.rest, ?_, hleft, h.right⟩
  exact h.elements.trans (Definitions.expression_elements _ _ _).symm

/-- An act that neither sees nor changes definitions goes abreast with itself. -/
theorem abreast_of_unseeing {α : Type} {x : Act α}
    (hx : ∀ definitions, Unseeing (·.withDefinitions definitions) x)
    (hd : ∀ e, (x e).2.definitions = e.definitions) (hk : Keeps e₀.SameDefinitions x) :
    Abreast e₀.SameButConverted x x := by
  intro e e' h
  have hrun : x e' = ((x e).1, (x e).2.withDefinitions e'.definitions) := by
    conv_lhs => rw [h.rest]
    exact hx e'.definitions e trivial
  have hright := hk e' h.right
  rw [hrun] at hright ⊢
  have helements : (x e).2.definitions.elements = e.definitions.elements := by rw [hd e]
  exact ⟨rfl, rfl, h.elements.trans helements.symm, hk e h.left, hright⟩

theorem resolve (receiver : Value) (namespaceName property : String) (force : Bool) :
    Abreast e₀.SameButConverted (Engine.resolve receiver namespaceName property force)
      (Engine.resolve receiver namespaceName property force) := by
  refine abreast_of_unseeing (fun definitions =>
    (unlooked_withDefinitions definitions).unseeing_resolve _ _ _ _) (fun e => ?_)
    ((steady_sameDefinitions e₀).resolve _ _ _ _)
  obtain ⟨_, _, hs⟩ := resolve_shows receiver namespaceName property force e
  exact hs.definitions

theorem withDefinitions_eq (h : e₀.SameButConverted e e') (definitions : Definitions) :
    e'.withDefinitions definitions = e.withDefinitions definitions :=
  congrArg (·.withDefinitions definitions) h.rest

/-- A log line about the same conversion is left in both. -/
theorem noteConversion_eq (h : e₀.SameButConverted e e') (n : Node)
    (r : Except Fault (Option Expr)) :
    noteConversion n r e' = (noteConversion n r e).withDefinitions e'.definitions := by
  conv_lhs => rw [h.rest]
  exact (unlooked_withDefinitions e'.definitions).noteConversion n r e

/-- A definition is the same for both, whether it has been converted or not. -/
theorem definition (id : String) :
    Abreast e₀.SameButConverted (Engine.definition id) (Engine.definition id) := by
  intro e e' h
  have hleft := (steady_sameDefinitions e₀).definition id e h.left
  have hright := (steady_sameDefinitions e₀).definition id e' h.right
  have helements : (e'.definitions.expression e'.converter id).2.elements =
      (e.definitions.expression e.converter id).2.elements := by
    rw [Definitions.expression_elements, Definitions.expression_elements, h.elements]
  cases hd : e₀.defined id with
  | ok d =>
    rw [definition_of_ok ((h.left.defined id).trans hd)] at hleft ⊢
    rw [definition_of_ok ((h.right.defined id).trans hd)] at hright ⊢
    exact ⟨rfl, h.withDefinitions_eq _, helements, hleft, hright⟩
  | error f =>
    have hf := (h.left.defined id).trans hd
    have hf' := (h.right.defined id).trans hd
    -- neither has an expression, so the same element is converted for both
    have hpending : pending? id e' = pending? id e := by
      rw [pending?, pending?, find?_of_error hf, find?_of_error hf', h.elements]
    have hconverter : e'.converter = e.converter := by rw [h.rest]; rfl
    rw [definition_apply, hf] at hleft ⊢
    rw [definition_apply, hf', hpending] at hright ⊢
    refine ⟨rfl, ?_, helements, hleft, hright⟩
    cases pending? id e with
    | none => exact h.withDefinitions_eq _
    | some n =>
      dsimp only
      rw [h.noteConversion_eq, hconverter]
      rfl

end SameButConverted

/-! ## Evaluation -/

/-- Questions to testers do not depend on what has been converted. -/
theorem test_abreast (e₀ : Engine) (q : PropertyTest) :
    (Meaning.test q).Abreast e₀.SameButConverted (.test q) := by
  rw [Meaning.test_eq_testBy]
  exact Meaning.testBy_abreast (SameButConverted.likeness e₀) SameButConverted.resolve q

variable {rank : String → ℕ} {depth depth' : ℕ}

/-- **References mean the same at all depths that are deep enough.** -/
theorem linkWithin_abreast
    (hrank : ∀ id x, e₀.defined id = .ok x → ∀ id' ∈ x.references, rank id' < rank id)
    (h : rank id < depth) (h' : rank id < depth') :
    (linkWithin depth id).Abreast e₀.SameButConverted (linkWithin depth' id) := by
  induction depth generalizing depth' id with
  | zero => omega
  | succ depth ih =>
    obtain _ | depth' := depth'
    · omega
    · intro ctx
      refine (SameButConverted.definition id).bind_of_results fun e e' x hee' hx => ?_
      have hdefined := hee'.left.defined_of_definition hx
      rw [Expr.meaning_eq_meaningBy, Expr.meaning_eq_meaningBy]
      refine x.meaningBy_abreast (SameButConverted.likeness e₀) (test_abreast e₀)
        (fun id' hid' => ?_) ctx
      have hlt := hrank id x hdefined id' hid'
      exact ih (by omega) (by omega)

end Engine

end Enablement
