import Enablement.Expr.Growing
import Enablement.Proofs.Expr.Equivalence
/-!
# Growing nodes — a kept hash code outlives the children it was computed from

A node that is asked for its hash code keeps the answer, and children that are added later do not
change it. So whatever is done with a node while it is built, its hash code is the one that was
right when it was asked for it first (`hashCode_after`), and it is right now exactly if the children
added since do not count (`hashCode_fresh_iff`). A finished node is one to which nothing is added
after that; its code is always right.
-/

namespace Enablement

namespace GrowingNode

/-- What can be done with a node while it is built. -/
inductive Call where
  /-- A child is added that answers with a code. -/
  | add (child : Expr) (code : UInt32)
  /-- The node is asked for its hash code. -/
  | ask

def Call.isAdd : Call → Bool
  | add _ _ => true
  | ask => false

/-- What a call makes of the node. -/
def Call.perform (h : Hasher) : Call → GrowingNode → GrowingNode
  | add child code, n => n.add child code
  | ask, n => (n.hashCode h).2

/-- The node after calls. -/
def after (h : Hasher) (n : GrowingNode) (calls : List Call) : GrowingNode :=
  calls.foldl (fun n call => call.perform h n) n

/-- The codes of the children that are added by calls. -/
def addedCodes (calls : List Call) : List UInt32 :=
  calls.filterMap fun
    | .add _ code => some code
    | .ask => none

/-- The children that are added by calls. -/
def addedChildren (calls : List Call) : List Expr :=
  calls.filterMap fun
    | .add child _ => some child
    | .ask => none

/-- The codes of the children that are added before the node is first asked. -/
def codesBeforeAsking (calls : List Call) : List UInt32 := addedCodes (calls.takeWhile Call.isAdd)

@[simp] theorem codesBeforeAsking_nil : codesBeforeAsking [] = [] := rfl

@[simp] theorem codesBeforeAsking_add (child : Expr) (code : UInt32) (calls : List Call) :
    codesBeforeAsking (.add child code :: calls) = code :: codesBeforeAsking calls := rfl

@[simp] theorem codesBeforeAsking_ask (calls : List Call) :
    codesBeforeAsking (.ask :: calls) = [] := rfl

variable {h : Hasher} {n : GrowingNode} {e : Expr} {codes : List UInt32}

/-! ## Adding -/

theorem hasCell_of_takesChildren (he : e.takesChildren = true) : e.hasCell = true := by
  cases e <;> simp_all [Expr.takesChildren, Expr.hasCell]

/-- A child changes neither the kind of a node nor its configuration. -/
theorem takesChildren_addChild (he : e.takesChildren = true) (child : Expr) :
    (e.addChild child).takesChildren = true := by
  cases e <;> simp_all [Expr.takesChildren, Expr.addChild]

theorem codeOver_addChild (h : Hasher) (codes : List UInt32) (e child : Expr) :
    (e.addChild child).codeOver h codes = e.codeOver h codes := by
  cases e <;> rfl

/-! ## Asking -/

/-- What a cell stores does not look like an empty cell. -/
theorem settle_ne (code : UInt32) : settle code ≠ notComputed := by
  unfold settle
  split
  · next hcode =>
    rw [hcode]
    decide
  · assumption

/-- A node with an empty cell computes its code and keeps it. -/
theorem hashCode_of_empty (he : n.expr.takesChildren = true) (hcell : n.cell = {}) :
    n.hashCode h = (n.expr.codeOver h n.codes, { n with cell := ⟨n.expr.codeOver h n.codes⟩ }) := by
  have hhas := hasCell_of_takesChildren he
  rw [hashCode, Expr.codeOver, hcell, if_pos hhas, if_pos hhas]
  rfl

/-- A node that keeps a code answers with it. -/
theorem hashCode_of_kept (he : n.expr.takesChildren = true)
    (hcell : n.cell.stored ≠ notComputed) : n.hashCode h = (n.cell.stored, n) := by
  rw [hashCode, if_pos (hasCell_of_takesChildren he), HashCell.getOrCompute, if_pos hcell]

/-- A newly built node answers with the code over the codes of its children. -/
theorem hashCode_renewed (he : n.expr.takesChildren = true) :
    (n.renewed.hashCode h).1 = n.expr.codeOver h n.codes := by
  rw [hashCode_of_empty (n := n.renewed) he rfl]
  rfl

theorem codeOver_ne (he : e.takesChildren = true) : e.codeOver h codes ≠ notComputed := by
  rw [Expr.codeOver, if_pos (hasCell_of_takesChildren he)]
  exact settle_ne _

/-! ## One call after another -/

/-- A call adds at most a child; what the node is otherwise, it stays. -/
theorem perform_eq (he : n.expr.takesChildren = true) (call : Call) :
    (call.perform h n).expr.takesChildren = true ∧
    (call.perform h n).expr.children = n.expr.children ++ addedChildren [call] ∧
    (call.perform h n).codes = n.codes ++ addedCodes [call] ∧
    ∀ codes, (call.perform h n).expr.codeOver h codes = n.expr.codeOver h codes := by
  cases call with
  | add child code =>
    exact ⟨takesChildren_addChild he child, Expr.children_addChild child he, rfl,
      fun codes => codeOver_addChild h codes n.expr child⟩
  | ask =>
    have hsame : (n.hashCode h).2.expr = n.expr ∧ (n.hashCode h).2.codes = n.codes := by
      unfold hashCode
      split <;> exact ⟨rfl, rfl⟩
    rw [Call.perform, hsame.1, hsame.2]
    exact ⟨he, (List.append_nil _).symm, (List.append_nil _).symm, fun _ => rfl⟩

/-- **Children come in the order in which they are added**, and nothing else about the node changes
but for its cell. -/
theorem after_eq (he : n.expr.takesChildren = true) (calls : List Call) :
    (after h n calls).expr.takesChildren = true ∧
    (after h n calls).expr.children = n.expr.children ++ addedChildren calls ∧
    (after h n calls).codes = n.codes ++ addedCodes calls ∧
    ∀ codes, (after h n calls).expr.codeOver h codes = n.expr.codeOver h codes := by
  induction calls generalizing n with
  | nil => exact ⟨he, (List.append_nil _).symm, (List.append_nil _).symm, fun _ => rfl⟩
  | cons call calls ih =>
    obtain ⟨htakes, hchildren, hcodes, hover⟩ := perform_eq (h := h) he call
    obtain ⟨htakes', hchildren', hcodes', hover'⟩ := ih htakes
    refine ⟨htakes', ?_, ?_, fun codes => (hover' codes).trans (hover codes)⟩
    · rw [after, List.foldl_cons, ← after, hchildren', hchildren, List.append_assoc,
        addedChildren, addedChildren, ← List.filterMap_append]
      rfl
    · rw [after, List.foldl_cons, ← after, hcodes', hcodes, List.append_assoc,
        addedCodes, addedCodes, ← List.filterMap_append]
      rfl

/-- A kept code stays, whatever is added. -/
theorem hashCode_after_of_kept (he : n.expr.takesChildren = true)
    (hcell : n.cell.stored ≠ notComputed) (calls : List Call) :
    ((after h n calls).hashCode h).1 = n.cell.stored := by
  induction calls generalizing n with
  | nil => exact congrArg Prod.fst (hashCode_of_kept he hcell)
  | cons call calls ih =>
    have hstored : (call.perform h n).cell.stored = n.cell.stored := by
      cases call with
      | add child code => rfl
      | ask => rw [Call.perform, hashCode_of_kept he hcell]
    rw [after, List.foldl_cons, ← after, ← hstored]
    exact ih (perform_eq he call).1 (hstored ▸ hcell)

/-- **The hash code is the one that was right when the node was first asked for it.** -/
theorem hashCode_after (he : n.expr.takesChildren = true) (hcell : n.cell = {})
    (calls : List Call) :
    ((after h n calls).hashCode h).1 = n.expr.codeOver h (n.codes ++ codesBeforeAsking calls) := by
  induction calls generalizing n with
  | nil =>
    have hanswer := congrArg Prod.fst (hashCode_of_empty (h := h) he hcell)
    simpa [after] using hanswer
  | cons call calls ih =>
    rw [after, List.foldl_cons, ← after]
    cases call with
    | add child code =>
      rw [Call.perform, ih (n := n.add child code) (takesChildren_addChild he child) hcell]
      simp [add, codeOver_addChild]
    | ask =>
      have hask := hashCode_of_empty (h := h) he hcell
      rw [Call.perform, hask]
      have hkept := hashCode_after_of_kept (h := h)
        (n := { n with cell := ⟨n.expr.codeOver h n.codes⟩ }) he (codeOver_ne he) calls
      simpa using hkept

/-- No child is added after the node has been asked. -/
def FinishedWhenAsked (calls : List Call) : Prop := addedCodes calls = codesBeforeAsking calls

/-- **A hash code is right exactly if the children count for nothing that were added after it was
first asked for.** A node that starts with an empty cell answers, after any calls, with the code
over the children that it had when it was first asked, and a newly built node over all of them with
the code over all of them. So nodes that are finished when they are asked are always right. And two
nodes that are equal, by children that answer alike, answer alike exactly if their codes over the
children that they had when they were first asked are the same. -/
theorem hashCode_fresh_iff (h : Hasher) (he : e.takesChildren = true) (codes : List UInt32)
    (calls : List Call) :
    let n := after h ⟨e, codes, {}⟩ calls
    n.expr.children = e.children ++ addedChildren calls ∧
    n.codes = codes ++ addedCodes calls ∧
    (n.hashCode h).1 = e.codeOver h (codes ++ codesBeforeAsking calls) ∧
    ((n.hashCode h).1 = (n.renewed.hashCode h).1 ↔
      e.codeOver h (codes ++ codesBeforeAsking calls) =
        e.codeOver h (codes ++ addedCodes calls)) ∧
    (FinishedWhenAsked calls → (n.hashCode h).1 = (n.renewed.hashCode h).1) ∧
    ∀ (e' : Expr) (codes' : List UInt32) (calls' : List Call), e'.takesChildren = true →
      let m := after h ⟨e', codes', {}⟩ calls'
      (m.expr == n.expr) = true → m.codes = n.codes →
      ((m.hashCode h).1 = (n.hashCode h).1 ↔
        e.codeOver h (codes' ++ codesBeforeAsking calls') =
          e.codeOver h (codes ++ codesBeforeAsking calls)) ∧
      (FinishedWhenAsked calls → FinishedWhenAsked calls' →
        (m.hashCode h).1 = (n.hashCode h).1) := by
  intro n
  have hnew : (GrowingNode.mk e codes {}).expr.takesChildren = true := he
  obtain ⟨htakes, hchildren, hcodes, hover⟩ := after_eq (h := h) hnew calls
  have hanswer : (n.hashCode h).1 = e.codeOver h (codes ++ codesBeforeAsking calls) :=
    hashCode_after hnew rfl calls
  have hfresh : (n.renewed.hashCode h).1 = e.codeOver h (codes ++ addedCodes calls) := by
    rw [hashCode_renewed htakes, hover, hcodes]
  refine ⟨hchildren, hcodes, hanswer, by rw [hanswer, hfresh], ?finished, ?equal⟩
  case finished =>
    intro hfinished
    rw [hanswer, hfresh, hfinished]
  case equal =>
    intro e' codes' calls' he' m hsame hcodes'
    have hnew' : (GrowingNode.mk e' codes' {}).expr.takesChildren = true := he'
    obtain ⟨-, -, hadded', hover'⟩ := after_eq (h := h) hnew' calls'
    -- equal nodes mix the codes of children alike
    have hmatches := (Expr.same_iff.1 hsame).1
    have hmix (codes : List UInt32) : e'.codeOver h codes = e.codeOver h codes := by
      rw [← hover codes, ← hover' codes]
      exact hmatches.codeOver_eq
    have hanswer' : (m.hashCode h).1 = e.codeOver h (codes' ++ codesBeforeAsking calls') :=
      (hashCode_after hnew' rfl calls').trans (hmix _)
    refine ⟨by rw [hanswer', hanswer], fun hfinished hfinished' => ?_⟩
    rw [hanswer', hanswer, ← hfinished, ← hfinished', ← hcodes, ← hadded', hcodes']

/-- The constant true, which answers with its code. -/
def addTrue : Call := .add (.constant true) ((Expr.constant true).code Atom.hasher)

/-- A conjunction that is asked only when it has its child is right. -/
theorem hashCode_fresh_iff_finished :
    let n := after Atom.hasher ⟨.and [], [], {}⟩ [addTrue, .ask, .ask]
    (n.hashCode Atom.hasher).1 = (n.renewed.hashCode Atom.hasher).1 := by
  obtain ⟨-, -, -, -, hfinished, -⟩ :=
    hashCode_fresh_iff Atom.hasher (rfl : (Expr.and []).takesChildren = true) []
      [addTrue, .ask, .ask]
  exact hfinished rfl

/-- Whether an expression that is asked, gets a child and is asked again answers as one that is
newly built with the child. -/
def freshWithChild (e : Expr) : Bool :=
  let n := after Atom.hasher ⟨e, [], {}⟩ [.ask, addTrue]
  (n.hashCode Atom.hasher).1 == (n.renewed.hashCode Atom.hasher).1

/-- **A node that is asked before its child is added keeps the code of a node without children**,
whatever its kind. -/
theorem not_hashCode_fresh :
    [Expr.and [], .or [], .enablement [], .withVariable "v" [], .resolve "v" [.null] [],
      .adapt "T" [], .iterate .or none []].any freshWithChild = false := by
  decide +kernel

end GrowingNode

end Enablement
