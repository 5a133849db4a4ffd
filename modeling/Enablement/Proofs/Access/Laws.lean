import Enablement.Expr.Access
/-!
# Access — the laws of joining

Access records are joined part by part, so they form a semilattice: joining is associative,
commutative and idempotent, and the empty record is neutral. Every way of adding to a record is
joining it with what is added to the empty one; so what a part of an expression adds is a record of
its own, whatever has been collected before.
-/

namespace Enablement

namespace NameSet

@[simp] theorem union_empty (s : NameSet) : s.union .empty = s :=
  ext_contains fun n => by simp

@[simp] theorem empty_union (s : NameSet) : NameSet.empty.union s = s :=
  ext_contains fun n => by simp

theorem union_assoc (s t u : NameSet) : (s.union t).union u = s.union (t.union u) :=
  ext_contains fun n => by simp [Bool.or_assoc]

theorem union_comm (s t : NameSet) : s.union t = t.union s :=
  ext_contains fun n => by simp [Bool.or_comm]

@[simp] theorem union_self (s : NameSet) : s.union s = s :=
  ext_contains fun n => by simp

theorem union_left_comm (s t u : NameSet) : s.union (t.union u) = t.union (s.union u) := by
  rw [← union_assoc, union_comm s t, union_assoc]

theorem union_union_self (s t : NameSet) : s.union (s.union t) = s.union t := by
  rw [← union_assoc, union_self]

theorem insert_eq_union (s : NameSet) (n : String) :
    s.insert n = s.union (NameSet.empty.insert n) := by
  refine ext_contains fun m => ?_
  rw [contains_insert, contains_union, contains_insert, contains_empty, Bool.or_false, Bool.or_comm]

end NameSet

namespace Access

variable {a b c : Access} {n : String}

/-- The empty record is neutral. -/
@[simp] theorem merge_empty (a : Access) : a.merge {} = a := by
  simp [merge, mergeExceptDefault]

@[simp] theorem empty_merge (a : Access) : ({} : Access).merge a = a := by
  simp [merge, mergeExceptDefault]

/-- Joining is associative. -/
theorem merge_assoc (a b c : Access) : (a.merge b).merge c = a.merge (b.merge c) := by
  simp [merge, mergeExceptDefault, NameSet.union_assoc, Bool.or_assoc]

/-- Joining is commutative. -/
theorem merge_comm (a b : Access) : a.merge b = b.merge a := by
  simp [merge, mergeExceptDefault, NameSet.union_comm, Bool.or_comm]

/-- Joining is idempotent. -/
@[simp] theorem merge_self (a : Access) : a.merge a = a := by
  simp [merge, mergeExceptDefault]

theorem merge_left_comm (a b c : Access) : a.merge (b.merge c) = b.merge (a.merge c) := by
  rw [← merge_assoc, merge_comm a b, merge_assoc]

theorem merge_merge_self (a b : Access) : a.merge (a.merge b) = a.merge b := by
  rw [← merge_assoc, merge_self]

/-! ## Adding is joining -/

theorem markDefault_eq (a : Access) : a.markDefault = a.merge (markDefault {}) := by
  simp [markDefault, merge, mergeExceptDefault]

theorem markSystem_eq (a : Access) : a.markSystem = a.merge (markSystem {}) := by
  simp [markSystem, merge, mergeExceptDefault]

theorem addVariable_eq (a : Access) (n : String) :
    a.addVariable n = a.merge (addVariable {} n) := by
  simp [addVariable, merge, mergeExceptDefault, ← NameSet.insert_eq_union]

theorem addProperty_eq (a : Access) (n : String) :
    a.addProperty n = a.merge (addProperty {} n) := by
  simp [addProperty, merge, mergeExceptDefault, ← NameSet.insert_eq_union]

theorem addMisbehaving_eq (a : Access) (n : String) :
    a.addMisbehaving n = a.merge (addMisbehaving {} n) := by
  simp [addMisbehaving, merge, mergeExceptDefault, ← NameSet.insert_eq_union]

theorem mergeExceptDefault_eq (a b : Access) :
    a.mergeExceptDefault b = a.merge (mergeExceptDefault {} b) := by
  simp [merge, mergeExceptDefault]

/-- **What a part adds that is asked about a named variable is a record of its own.** -/
theorem mergeRebound_eq (a : Access) (n : String) (b : Access) :
    a.mergeRebound n b = a.merge (mergeRebound {} n b) := by
  rw [mergeRebound, mergeRebound]
  cases b.defaultVariable with
  | false => exact mergeExceptDefault_eq a b
  | true =>
    rw [if_pos rfl, if_pos rfl, mergeExceptDefault_eq, addVariable_eq, merge_assoc,
      ← mergeExceptDefault_eq]

/-- **Asking about a named variable respects joining.** -/
theorem mergeRebound_merge (n : String) (a b : Access) :
    mergeRebound {} n (a.merge b) = (mergeRebound {} n a).merge (mergeRebound {} n b) := by
  -- the name is added if one of the two looks at the default variable
  cases ha : a.defaultVariable <;> cases hb : b.defaultVariable <;>
    simp [mergeRebound, merge, mergeExceptDefault, addVariable, ha, hb, NameSet.union_assoc,
      NameSet.union_left_comm _ (NameSet.empty.insert n), NameSet.union_union_self]

end Access

end Enablement
