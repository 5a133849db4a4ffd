import Enablement.Engine.Access
import Enablement.Proofs.Expr.Equivalence
/-!
# Expressions — references that are linked alike

Equality does not tell linked references from others, but what an expression looks at goes by them:
those that are not linked add nothing. Equal expressions have references at the same places, so it
makes sense to ask whether these are linked alike. If they are, the expressions look at the same
(`Engine.access_congr`).
-/

namespace Enablement

namespace Expr

variable {a b : Expr} {cs ds : List Expr}

/-- Whether a reference is linked. -/
def link? : Expr → Option Bool
  | .reference _ linked => some linked
  | _ => none

/-- Whether each reference in an expression is linked, in order. -/
def linkage (x : Expr) : List Bool := x.leaves.filterMap link?

/-- The references are the expression itself, or else those of its children. -/
theorem linkage_eq (x : Expr) : x.linkage = x.link?.toList ++ x.children.flatMap linkage := by
  have hall : ∀ cs : List Expr, (leavesAll cs).filterMap link? = cs.flatMap linkage := fun cs => by
    rw [leavesAll_eq_flatMap, List.filterMap_flatMap]
    rfl
  cases x with
  | not c => exact (List.append_nil _).symm
  | and _ | or _ | enablement _ | withVariable _ _ | resolve _ _ _ | adapt _ _ | iterate _ _ _
  | group _ _ => exact hall _
  | count _ | equals _ | systemTest _ _ | test _ | reference _ _ | instanceOf _ | constant _
  | fixed _ _ => rfl

theorem Matches.length_link? (h : Matches a b) :
    a.link?.toList.length = b.link?.toList.length := by
  cases h <;> rfl

/-- Equal expressions have as many references. -/
theorem length_linkage (h : same a b = true) : a.linkage.length = b.linkage.length := by
  induction a using inductionOn generalizing b with
  | step a ih =>
  obtain ⟨hmatches, hall⟩ := same_iff.1 h
  have hlengths : a.children.map (fun c => c.linkage.length) =
      b.children.map (fun d => d.linkage.length) := by
    rw [← List.forall₂_eq_eq_eq, List.forall₂_map_left_iff, List.forall₂_map_right_iff]
    exact forall₂_of_sameAll (fun c hc _ => ih c hc) hall
  rw [linkage_eq a, linkage_eq b, List.length_append, List.length_append, hmatches.length_link?,
    List.length_flatMap, List.length_flatMap, hlengths]

theorem forall₂_linkage (hall : sameAll cs ds = true)
    (hl : cs.flatMap linkage = ds.flatMap linkage) :
    List.Forall₂ (fun c d => same c d = true ∧ c.linkage = d.linkage) cs ds := by
  have hsame := sameAll_iff.1 hall
  clear hall
  induction hsame with
  | nil => exact .nil
  | cons hcd _ ih =>
    rw [List.flatMap_cons, List.flatMap_cons] at hl
    obtain ⟨hhead, htail⟩ := List.append_inj hl (length_linkage hcd)
    exact .cons ⟨hcd, hhead⟩ (ih htail)

/-- **Equal expressions that are linked alike are linked alike in every part**: the nodes are, and
so are their children. -/
theorem linkage_children (h : same a b = true) (hl : a.linkage = b.linkage) :
    a.link? = b.link? ∧
      List.Forall₂ (fun c d => same c d = true ∧ c.linkage = d.linkage) a.children b.children := by
  obtain ⟨hmatches, hall⟩ := same_iff.1 h
  -- the lists fall apart at the same places, since equal parts have as many references
  rw [linkage_eq a, linkage_eq b] at hl
  obtain ⟨hnode, hchildren⟩ := List.append_inj hl hmatches.length_link?
  refine ⟨?_, forall₂_linkage hall hchildren⟩
  cases hmatches with
  | reference id linked linked' => exact congrArg some (List.cons.inj hnode).1
  | _ => rfl

/-! ## What is looked at -/

variable {link : String → Collector}

theorem collectorAll_congr
    (h : List.Forall₂ (fun c d : Expr => c.collector link = d.collector link) cs ds) :
    collectorAll link cs = collectorAll link ds := by
  induction h with
  | nil => rfl
  | cons hcd _ ih => rw [collectorAll, collectorAll, hcd, ih]

/-- **Equal expressions that are linked alike collect the same.** -/
theorem collector_congr (h : same a b = true) (hl : a.linkage = b.linkage) :
    a.collector link = b.collector link := by
  induction a using inductionOn generalizing b with
  | step a ih =>
  obtain ⟨hlink, hchildren⟩ := linkage_children h hl
  -- equality alone is not enough for the children: they are linked alike because the whole is
  have hmem := (List.forall₂_and_left a.children b.children).2 ⟨fun c hc => hc, hchildren⟩
  have heach := hmem.imp (S := fun c d => c.collector link = d.collector link)
    fun c d hcd => ih c hcd.1 hcd.2.1 hcd.2.2
  have hall := collectorAll_congr heach
  cases (same_iff.1 h).1 with
  | and cs ds | or cs ds | enablement cs ds | group o cs ds => exact hall
  | not c d =>
    cases heach with
    | cons hcd _ => exact hcd
  | withVariable name cs ds => exact congrArg (Collector.rebound name) hall
  | resolve name hargs cs ds => exact congrArg (Collector.rebound name) hall
  | adapt target cs ds => exact congrArg (Collector.andThen (.mark .markDefault)) hall
  | iterate o ifEmpty cs ds => exact congrArg (Collector.andThen (.mark .markDefault)) hall
  | @test t u htu =>
    obtain ⟨hnamespace, hproperty, -, -, -⟩ := PropertyTest.same_iff.1 htu
    rw [collector, collector, PropertyTest.qualified, PropertyTest.qualified, hnamespace, hproperty]
  | reference id linked linked' => rw [Option.some.inj hlink]
  | count mode | equals hvw | systemTest property value | instanceOf t | constant value
  | fixed label label' outcome => rfl

end Expr

/-- **Equal expressions that are linked alike look at the same.** -/
theorem Engine.access_congr {a b : Expr} (h : a.same b = true) (hl : a.linkage = b.linkage)
    (e : Engine) : access a e = access b e := by
  rw [access, access, collect, collect, Expr.collector_congr h hl]

end Enablement
