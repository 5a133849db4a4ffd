import Enablement.Proofs.Expr.Replacing
/-!
# Expressions — references replaced all at once

Linked references are replaced wherever an expression is given for their identifier, and the rest of
the tree stays as it is (`Expr.substitute_cases`). The linked references that are there afterwards
are the others, and those that the replacements have brought (`Expr.linked_of_mem_substitute`).
-/

namespace Enablement.Expr

mutual

/-- The expression with linked references replaced by what is given for them. -/
def substitute (given : String → Option Expr) : Expr → Expr
  | .and cs => .and (substituteAll given cs)
  | .or cs => .or (substituteAll given cs)
  | .not c => .not (substitute given c)
  | .enablement cs => .enablement (substituteAll given cs)
  | .withVariable x cs => .withVariable x (substituteAll given cs)
  | .resolve x args cs => .resolve x args (substituteAll given cs)
  | .adapt t cs => .adapt t (substituteAll given cs)
  | .iterate o ifEmpty cs => .iterate o ifEmpty (substituteAll given cs)
  | .reference id true => (given id).getD (.reference id true)
  | .group o cs => .group o (substituteAll given cs)
  | x => x

def substituteAll (given : String → Option Expr) : List Expr → List Expr
  | [] => []
  | c :: cs => substitute given c :: substituteAll given cs

end

theorem substituteAll_eq_map (given : String → Option Expr) (cs : List Expr) :
    substituteAll given cs = cs.map (substitute given) := by
  induction cs with
  | nil => rfl
  | cons c cs ih => rw [substituteAll, ih, List.map_cons]

/-- A linked reference is replaced, and everything else is over what its children become. -/
theorem substitute_cases (given : String → Option Expr) (x : Expr) :
    (∃ id, x = .reference id true ∧ x.substitute given = (given id).getD x) ∨
      (∀ id, x ≠ .reference id true) ∧
        x.substitute given = x.withChildren (x.children.map (substitute given)) := by
  cases x with
  | reference id linked =>
    cases linked with
    | true => exact .inl ⟨id, rfl, rfl⟩
    | false => exact .inr ⟨fun _ h => (nomatch h), rfl⟩
  | not c => exact .inr ⟨fun _ h => (nomatch h), rfl⟩
  | and cs | or cs | enablement cs | withVariable _ cs | resolve _ _ cs | adapt _ cs
  | iterate _ _ cs | group _ cs =>
    refine .inr ⟨fun _ h => (nomatch h), ?_⟩
    rw [substitute, substituteAll_eq_map]
    rfl
  | count _ | equals _ | systemTest _ _ | test _ | instanceOf _ | constant _ | fixed _ _ =>
    exact .inr ⟨fun _ h => (nomatch h), rfl⟩

/-- A linked reference that is there afterwards was there and nothing was given for it, or it comes
from what was given for another one. -/
theorem linked_of_mem_substitute {given : String → Option Expr} {x : Expr} {id : String}
    (h : .reference id true ∈ (x.substitute given).leaves) :
    .reference id true ∈ x.leaves ∧ given id = none ∨
      ∃ id' d, .reference id' true ∈ x.leaves ∧ given id' = some d ∧
        .reference id true ∈ d.leaves := by
  induction x using Expr.inductionOn with
  | step x ih =>
  obtain ⟨id', rfl, hx⟩ | ⟨hne, hx⟩ := x.substitute_cases given
  · rw [hx] at h
    cases hd : given id' with
    | none =>
      rw [hd] at h
      cases List.mem_singleton.1 h
      exact .inl ⟨List.mem_singleton.2 rfl, hd⟩
    | some d =>
      rw [hd] at h
      exact .inr ⟨id', d, List.mem_singleton.2 rfl, hd, h⟩
  · rw [hx] at h
    obtain hself | ⟨c, hc, hcid⟩ := eq_or_mem_children_of_mem_leaves h
    · cases x with
      | reference id' linked => exact absurd hself.symm (hne id)
      | _ => cases hself
    · rw [children_withChildren x (List.length_map _)] at hc
      obtain ⟨b, hb, rfl⟩ := List.mem_map.1 hc
      obtain ⟨hid, hgiven⟩ | ⟨id', d, hid', hd, hid⟩ := ih b hb hcid
      · exact .inl ⟨mem_leaves_of_mem_children hb hid, hgiven⟩
      · exact .inr ⟨id', d, mem_leaves_of_mem_children hb hid', hd, hid⟩

end Enablement.Expr
