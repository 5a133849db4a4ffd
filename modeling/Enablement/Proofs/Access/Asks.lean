import Enablement.Proofs.Access.Looks
/-!
# Access — the properties that an expression asks about

A record says which properties are asked about, and whether a system property is. What a part of an
expression asks about, the whole expression does, also if the part is asked about another default
variable: rebinding hides that the default variable is looked at, and nothing else. So the record of
an expression names what its leaves ask about.
-/

namespace Enablement

namespace Access

/-- What a record says about properties, another one says, too. -/
structure AsksWithin (b a : Access) : Prop where
  systemProperty : b.systemProperty = true → a.systemProperty = true
  properties : ∀ n, b.properties.contains n = true → a.properties.contains n = true

variable {a b c : Access}

theorem AsksWithin.refl (a : Access) : a.AsksWithin a := ⟨id, fun _ => id⟩

theorem AsksWithin.trans (h : c.AsksWithin b) (h' : b.AsksWithin a) : c.AsksWithin a :=
  ⟨fun hs => h'.systemProperty (h.systemProperty hs),
    fun n hn => h'.properties n (h.properties n hn)⟩

theorem asksWithin_merge_left (a b : Access) : a.AsksWithin (a.merge b) := by
  refine ⟨fun h => ?_, fun n h => ?_⟩
  · simp only [merge, mergeExceptDefault, h, Bool.true_or]
  · simp only [merge, mergeExceptDefault, NameSet.contains_union, h, Bool.true_or]

theorem asksWithin_merge_right (a b : Access) : b.AsksWithin (a.merge b) := by
  refine ⟨fun h => ?_, fun n h => ?_⟩
  · simp only [merge, mergeExceptDefault, h, Bool.or_true]
  · simp only [merge, mergeExceptDefault, NameSet.contains_union, h, Bool.or_true]

/-- Rebinding the default variable hides no property. -/
theorem asksWithin_mergeRebound (n : String) (b : Access) :
    b.AsksWithin (mergeRebound {} n b) := by
  refine ⟨fun h => ?_, fun m h => ?_⟩
  · rw [mergeRebound]
    cases b.defaultVariable <;> simp [mergeExceptDefault, h]
  · rw [mergeRebound]
    cases b.defaultVariable <;> simp [mergeExceptDefault, addVariable, h]

end Access

namespace Expr

variable {link : String → Access} {x y : Expr}

theorem looks_asksWithin_looksAll {c : Expr} {cs : List Expr} (hc : c ∈ cs) :
    (c.looks link).AsksWithin (looksAll link cs) := by
  induction cs with
  | nil => cases hc
  | cons d cs ih =>
    rw [looksAll]
    rcases List.mem_cons.1 hc with rfl | hc
    · exact Access.asksWithin_merge_left _ _
    · exact (ih hc).trans (Access.asksWithin_merge_right _ _)

/-- What a child asks about, the expression does. -/
theorem looks_asksWithin_of_mem_children {c : Expr} (hc : c ∈ x.children) :
    (c.looks link).AsksWithin (x.looks link) := by
  have hall : ∀ {cs}, c ∈ cs → (c.looks link).AsksWithin (looksAll link cs) :=
    looks_asksWithin_looksAll
  cases x with
  | not d =>
    obtain rfl := List.mem_singleton.1 hc
    exact .refl _
  | and cs => exact hall hc
  | or cs => exact hall hc
  | enablement cs => exact hall hc
  | group connective cs => exact hall hc
  | withVariable name cs => exact (hall hc).trans (Access.asksWithin_mergeRebound _ _)
  | resolve name args cs => exact (hall hc).trans (Access.asksWithin_mergeRebound _ _)
  | adapt target cs => exact (hall hc).trans (Access.asksWithin_merge_right _ _)
  | iterate connective ifEmpty cs => exact (hall hc).trans (Access.asksWithin_merge_right _ _)
  | _ => cases hc

/-- **What a leaf asks about, the expression does.** -/
theorem looks_asksWithin_of_mem_leaves (link : String → Access) (hy : y ∈ x.leaves) :
    (y.looks link).AsksWithin (x.looks link) := by
  induction x using Expr.inductionOn with
  | step x ih =>
  rcases eq_or_mem_children_of_mem_leaves hy with rfl | ⟨c, hc, hy⟩
  · exact .refl _
  · exact (ih c hc hy).trans (looks_asksWithin_of_mem_children hc)

/-- So a record names the property of every question to a tester. -/
theorem contains_looks_of_test {q : PropertyTest} (hq : .test q ∈ x.leaves) :
    (x.looks link).properties.contains q.qualified = true := by
  refine (looks_asksWithin_of_mem_leaves link hq).properties _ ?_
  simp [looks, Access.addProperty, NameSet.contains_insert]

/-- And it says that a system property is asked about, if a question is about one by its kind. -/
theorem systemProperty_looks_of_systemTest {property value : String}
    (h : .systemTest property value ∈ x.leaves) : (x.looks link).systemProperty = true :=
  (looks_asksWithin_of_mem_leaves link h).systemProperty rfl

end Expr

end Enablement
