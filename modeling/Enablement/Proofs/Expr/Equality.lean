import Enablement.Proofs.Expr.Children
/-!
# Equality — everything is equal to itself

Equality is computed, of numbers from their exact values, of values and expressions from their
parts. It is coarser than being the same thing, but no part is unequal to itself: numbers that are
not a number are equal to each other.
-/

namespace Enablement

namespace Number

theorem compare_self (a : Number) : compare a a = .eq := by
  rw [compare]
  cases a.canonical with
  | int n => exact Std.compare_self
  | float x =>
    simp only [Binary64.compare]
    cases x.isNaN with
    | true => rfl
    | false => exact Std.compare_self

instance : ReflBEq Number where
  rfl {a} := by
    change (compare a a == .eq) = true
    rw [compare_self]
    rfl

end Number

namespace Value

mutual

theorem same_self : ∀ v : Value, same v v = true
  | .null => rfl
  | .bool b => beq_self_eq_true b
  | .number n => beq_self_eq_true n
  | .string s => beq_self_eq_true s
  | .array items => sameItems_self items
  | .set members => sameItems_self members
  | .object entries => sameEntries_self entries
  | .type name => beq_self_eq_true name
  | .host ref => beq_self_eq_true ref
  | .undefined => rfl

theorem sameItems_self : ∀ vs : List Value, sameItems vs vs = true
  | [] => rfl
  | v :: vs => Bool.and_eq_true_iff.2 ⟨same_self v, sameItems_self vs⟩

theorem sameEntries_self : ∀ es : List (Value × Value), sameEntries es es = true
  | [] => rfl
  | (k, v) :: es =>
    Bool.and_eq_true_iff.2
      ⟨Bool.and_eq_true_iff.2 ⟨same_self k, same_self v⟩, sameEntries_self es⟩

end

instance : ReflBEq Value where
  rfl {v} := same_self v

end Value

theorem PropertyTest.same_self (t : PropertyTest) : t.same t = true := by
  rw [same]
  cases t.expected <;> simp [Value.sameItems_self]

namespace Expr

theorem sameAll_self {cs : List Expr} (h : ∀ c ∈ cs, same c c = true) : sameAll cs cs = true := by
  induction cs with
  | nil => rfl
  | cons c cs ih =>
    rw [sameAll, h c List.mem_cons_self, ih fun d hd => h d (List.mem_cons_of_mem c hd)]
    rfl

/-- **Every expression is equal to itself.** -/
theorem same_self (x : Expr) : same x x = true := by
  induction x using inductionOn with
  | step x ih =>
  have hall : sameAll x.children x.children = true := sameAll_self ih
  cases x with
  | not c => exact ih c List.mem_cons_self
  | and cs | or cs | enablement cs => exact hall
  | withVariable name cs => exact Bool.and_eq_true_iff.2 ⟨beq_self_eq_true name, hall⟩
  | adapt target cs => exact Bool.and_eq_true_iff.2 ⟨beq_self_eq_true target, hall⟩
  | group connective cs => exact Bool.and_eq_true_iff.2 ⟨beq_self_eq_true connective, hall⟩
  | resolve name args cs =>
    exact Bool.and_eq_true_iff.2
      ⟨Bool.and_eq_true_iff.2 ⟨beq_self_eq_true _, Value.sameItems_self args⟩, hall⟩
  | iterate connective ifEmpty cs =>
    exact Bool.and_eq_true_iff.2
      ⟨Bool.and_eq_true_iff.2 ⟨beq_self_eq_true _, beq_self_eq_true _⟩, hall⟩
  | test t => exact t.same_self
  | _ => simp [same]

instance : ReflBEq Expr where
  rfl {x} := same_self x

end Expr

end Enablement
