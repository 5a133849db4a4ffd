import Enablement.Proofs.Access.Collecting
import Enablement.Proofs.Evaluation.Converted
import Enablement.Proofs.Expr.Substitution
/-!
# Evaluation — references and what they stand for

A definition can be written where it is referred to. An expression unfolds to another one when
linked references in it, and in what is written for them, are replaced by their definitions
(`Engine.Unfolds`). What it looks at stays the same, since a reference looks at what its definition
looks at. And it evaluates alike: the definition that is entered for one expression has been written
out in the other, so the two runs go abreast (`Engine.Unfolds.abreast`). The replacement of one
reference at any place unfolds an expression, and so does that of all of them, which leaves none
whose definition converts (`Engine.inline_meansAlike`).
-/

namespace Enablement

/-- Lists of one length are related place by place. -/
theorem forall₂_of_getElem? {α β : Type} {r : α → β → Prop} {as : List α} {bs : List β}
    (hlength : bs.length = as.length)
    (h : ∀ (i : ℕ) (a : α) (b : β), as[i]? = some a → bs[i]? = some b → r a b) :
    List.Forall₂ r as bs :=
  List.forall₂_iff_get.2 ⟨hlength.symm, fun i ha hb =>
    h i _ _ (List.getElem?_eq_getElem ha) (List.getElem?_eq_getElem hb)⟩

namespace Engine

open Act

variable {e₀ e e' : Engine} {id : String} {d : Expr}

/-! ## Unfolding references -/

/-- An expression unfolds to another one: linked references in it, and in what is written for them,
may be replaced by their definitions. -/
inductive Unfolds (e : Engine) : Expr → Expr → Prop
  /-- A reference unfolds to what its definition unfolds to. -/
  | entered {id : String} {d y : Expr} (defined : e.defined id = .ok d) (below : Unfolds e d y) :
    Unfolds e (.reference id true) y
  /-- An expression unfolds to itself over what its children unfold to. -/
  | node {x : Expr} {ds : List Expr} (length : ds.length = x.children.length)
    (below : ∀ (i : ℕ) (c d : Expr), x.children[i]? = some c → ds[i]? = some d → Unfolds e c d) :
    Unfolds e x (x.withChildren ds)

namespace Unfolds

variable {x y : Expr}

theorem refl (e : Engine) (x : Expr) : e.Unfolds x x := by
  induction x using Expr.inductionOn with
  | step x ih =>
  have hnode : e.Unfolds x (x.withChildren x.children) := by
    refine .node rfl fun i c d hc hd => ?_
    cases hc.symm.trans hd
    exact ih c (List.mem_of_getElem? hc)
  rwa [Expr.withChildren_children] at hnode

/-- Where names are defined alike, expressions unfold alike. -/
theorem congr (h : e.Unfolds x y) (he : e.SameDefinitions e') : e'.Unfolds x y := by
  induction h with
  | entered hd _ ih => exact .entered ((he.defined _).trans hd) ih
  | node hlength _ ih => exact .node hlength ih

/-- **Unfolding changes nothing about what an expression looks at.** -/
theorem looks_eq (hacyclic : e.DefinitionsAcyclic) (h : e.Unfolds x y) :
    y.looks e.looksOf = x.looks e.looksOf := by
  induction h with
  | entered hd _ ih => exact ih.trans (hacyclic.looksOf_eq hd).symm
  | node hlength _ ih => exact Expr.looks_withChildren_eq (forall₂_of_getElem? hlength ih)

end Unfolds

/-! ## Evaluation -/

variable {rank : String → ℕ} {depth depth' : ℕ}

/-- **An expression and what it unfolds to evaluate abreast.** -/
theorem Unfolds.abreast {x y : Expr}
    (hrank : ∀ id x, e₀.defined id = .ok x → ∀ id' ∈ x.references, rank id' < rank id)
    (h : e₀.Unfolds x y) (hdepth : ∀ id ∈ x.references, rank id < depth)
    (hdepth' : ∀ id, rank id < depth') :
    (x.meaning (linkWithin depth)).Abreast e₀.SameButConverted (y.meaning (linkWithin depth')) := by
  induction h generalizing depth with
  | @entered id d y hd _ ih =>
    have hid := hdepth id (Expr.mem_references_reference id true)
    obtain _ | depth := depth
    · omega
    · intro ctx e e' hee'
      obtain ⟨hrun, hentered⟩ := hee'.entered hd
      have hbelow : ∀ id' ∈ d.references, rank id' < depth := fun id' hid' => by
        have hlt := hrank id d hd id' hid'
        omega
      -- the definition is entered on the left, and has been written out on the right
      have hmeaning : (Expr.reference id true).meaning (linkWithin (depth + 1)) ctx e =
          d.meaning (linkWithin depth) ctx (definition id e).2 := bind_of_ok hrun _
      rw [hmeaning]
      exact ih hbelow ctx _ e' hentered
  | @node x ds hlength _ ih =>
    have hchildren : List.Forall₂ (fun c d => (c.meaningBy Meaning.test (linkWithin depth)).Abreast
        e₀.SameButConverted (d.meaningBy Meaning.test (linkWithin depth'))) x.children ds := by
      refine forall₂_of_getElem? hlength fun i c d hc hd => ?_
      have hcd := ih i c d hc hd fun id hid =>
        hdepth id (Expr.mem_references_of_mem_children (List.mem_of_getElem? hc) hid)
      rwa [Expr.meaning_eq_meaningBy, Expr.meaning_eq_meaningBy] at hcd
    rw [Expr.meaning_eq_meaningBy, Expr.meaning_eq_meaningBy]
    refine Expr.abreast_withChildren (SameButConverted.likeness e₀) hchildren
      (fun q _ => test_abreast e₀ q) fun id linked hx => ?_
    subst hx
    have hid := hdepth id (Expr.mem_references_reference id linked)
    exact linkWithin_abreast hrank hid (hdepth' id)

/-- Two expressions look at the same, and in every context they end alike, record the same, and
leave engines behind that differ at most in which definitions have been converted. -/
structure MeansAlike (e : Engine) (x y : Expr) : Prop where
  access : (access y e).1 = (access x e).1
  evaluate : ∀ ctx, (evaluate y ctx e).1 = (evaluate x ctx e).1 ∧
    (evaluate y ctx e).2.journal = (evaluate x ctx e).2.journal ∧
    e.SameButConverted (evaluate x ctx e).2 (evaluate y ctx e).2

/-- **Unfolding keeps the meaning.** -/
theorem Unfolds.meansAlike {x y : Expr} (hacyclic : e.DefinitionsAcyclic) (h : e.Unfolds x y) :
    e.MeansAlike x y := by
  obtain ⟨rank, hbound, hrank⟩ := hacyclic.exists_rank
  have hdepth : ∀ id, rank id < e.referenceDepth + maxReentries := fun id => by
    have hid := hbound id
    omega
  refine ⟨?_, fun ctx => ?_⟩
  · rw [access_fst, access_fst, h.looks_eq hacyclic]
  · obtain ⟨hend, hleft⟩ := h.abreast hrank (fun id _ => hdepth id) hdepth ctx e e
      (.refl (.refl e))
    have hjournal := congrArg Engine.journal hleft.rest
    exact ⟨hend.symm, hjournal, hleft⟩

/-! ## One reference -/

/-- Replacing a linked reference by its definition unfolds it. -/
theorem unfolds_replaceAt {x : Expr} {path : List ℕ}
    (hx : x.part? path = some (.reference id true)) (hd : e.defined id = .ok d) :
    e.Unfolds x (x.replaceAt path d) := by
  induction path generalizing x with
  | nil =>
    cases hx
    exact .entered hd (.refl e d)
  | cons i path ih =>
    obtain ⟨c, hc, hpart⟩ := Expr.part?_cons_eq_some.1 hx
    refine .node (List.length_modify ..) fun j a b ha hb => ?_
    rw [List.getElem?_modify, ha, Option.map_eq_map, Option.map_some, Option.some_inj] at hb
    by_cases hij : i = j
    · subst hij
      cases hc.symm.trans ha
      rw [if_pos rfl] at hb
      exact hb ▸ ih hpart
    · rw [if_neg hij] at hb
      exact hb ▸ .refl e a

/-! ## All references -/

/-- The expression with linked references replaced by their definitions, and those in definitions to
a depth. -/
def inlineWithin (e : Engine) : (depth : ℕ) → Expr → Expr
  | 0, x => x
  | depth + 1, x => x.substitute fun id =>
    match e.defined id with
    | .ok d => some (e.inlineWithin depth d)
    | .error _ => none

/-- The expression with all references replaced that have a definition. -/
def inline (e : Engine) : Expr → Expr := e.inlineWithin e.referenceDepth

/-- Replacing all references unfolds them. -/
theorem unfolds_inlineWithin (e : Engine) (depth : ℕ) (x : Expr) :
    e.Unfolds x (e.inlineWithin depth x) := by
  induction depth generalizing x with
  | zero => exact .refl e x
  | succ depth ih =>
    rw [inlineWithin]
    induction x using Expr.inductionOn with
    | step x ihx =>
    obtain ⟨id, rfl, hx⟩ | ⟨-, hx⟩ := x.substitute_cases fun id =>
      match e.defined id with
      | .ok d => some (e.inlineWithin depth d)
      | .error _ => none
    · rw [hx]
      cases hd : e.defined id with
      | ok d => exact .entered hd (ih d)
      | error f => exact .refl e _
    · rw [hx]
      refine .node (List.length_map _) fun i c d hc hd => ?_
      rw [List.getElem?_map, hc, Option.map_some, Option.some_inj] at hd
      exact hd ▸ ihx c (List.mem_of_getElem? hc)

/-- **A linked reference that is left has no definition that converts**, if definitions were entered
deep enough. -/
theorem error_of_mem_inlineWithin
    (hrank : ∀ id x, e.defined id = .ok x → ∀ id' ∈ x.references, rank id' < rank id) {x : Expr}
    (hdepth : ∀ id ∈ x.references, rank id < depth)
    (h : .reference id true ∈ (e.inlineWithin depth x).leaves) : ∃ f, e.defined id = .error f := by
  induction depth generalizing x with
  | zero => exact absurd (hdepth id (Expr.mem_references_of_mem_leaves h)) (Nat.not_lt_zero _)
  | succ depth ih =>
    rw [inlineWithin] at h
    obtain ⟨-, hgiven⟩ | ⟨id', y, hid', hgiven, hid⟩ := Expr.linked_of_mem_substitute h
    · cases hd : e.defined id with
      | ok d =>
        rw [hd] at hgiven
        cases hgiven
      | error f => exact ⟨f, rfl⟩
    · have hlt := hdepth id' (Expr.mem_references_of_mem_leaves hid')
      cases hd : e.defined id' with
      | error f =>
        rw [hd] at hgiven
        cases hgiven
      | ok d =>
        rw [hd] at hgiven
        cases hgiven
        refine ih (fun id'' hid'' => ?_) hid
        have hbelow := hrank id' d hd id'' hid''
        omega

/-- **Definitions can be written where they are referred to.** Where no definition leads back to
itself, a linked reference at any place of an expression may be replaced by its definition, and so
may all of them, in the expression and in the definitions, as far as the definitions convert. In
every engine in which names are defined alike, the expression looks at the same afterwards; and in
every context it ends alike, asks the same of testers, and leaves the same engine behind but for
what has been converted. -/
theorem inline_meansAlike (hacyclic : e₀.DefinitionsAcyclic) (hsame : e₀.SameDefinitions e)
    (x : Expr) :
    (∀ path id d, x.part? path = some (.reference id true) → e₀.defined id = .ok d →
      e.MeansAlike x (x.replaceAt path d)) ∧
    e.MeansAlike x (e₀.inline x) ∧
    ∀ id, .reference id true ∈ (e₀.inline x).leaves → ∃ f, e₀.defined id = .error f := by
  have hacyclic' := hacyclic.congr hsame
  refine ⟨fun path id d hx hd => ?_, ?_, fun id hid => ?_⟩
  · exact ((unfolds_replaceAt hx hd).congr hsame).meansAlike hacyclic'
  · exact ((unfolds_inlineWithin e₀ _ x).congr hsame).meansAlike hacyclic'
  · obtain ⟨rank, hbound, hrank⟩ := hacyclic.exists_rank
    exact error_of_mem_inlineWithin hrank (fun id _ => hbound id) hid

/-- A reference under a rebound variable is replaced by its definition, and then the one in the
definition. -/
theorem nestedLists_inline_meansAlike :
    nestedLists.DefinitionsAcyclic ∧ nestedLists.SameDefinitions nestedLists ∧
      Expr.part? [0] (.withVariable "v" [.reference "lists" true]) =
        some (.reference "lists" true) ∧
      nestedLists.MeansAlike (.withVariable "v" [.reference "lists" true])
        (.withVariable "v" [.iterate .and none [.reference "list" true]]) ∧
      nestedLists.MeansAlike (.withVariable "v" [.reference "lists" true])
        (.withVariable "v" [.iterate .and none [.count .oneOrMore]]) := by
  obtain ⟨hone, hall, -⟩ := inline_meansAlike nestedLists_acyclic (.refl nestedLists)
    (.withVariable "v" [.reference "lists" true])
  have hplace : Expr.part? [0] (.withVariable "v" [.reference "lists" true]) =
      some (.reference "lists" true) := rfl
  exact ⟨nestedLists_acyclic, .refl nestedLists, hplace,
    hone [0] "lists" _ hplace defined_nestedLists.2, hall⟩

end Engine

end Enablement
