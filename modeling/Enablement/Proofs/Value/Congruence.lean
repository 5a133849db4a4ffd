import Enablement.Proofs.Expr.Equivalence
import Enablement.Proofs.Registry.Steps
/-!
# Values — what equal values have in common

Equal values are of one type, are both types standing for themselves or neither, and have equal
elements, the same number of them. So whatever the host declares for types, it declares for equal
values alike.
-/

namespace Enablement

namespace Value

variable {v w : Value}

theorem typeName_congr (h : (v == w) = true) : v.typeName = w.typeName := by
  cases sameKind_of_same h with
  | type x y => exact beq_iff_eq.1 h
  | host x y => rw [(beq_iff_eq.1 h : x = y)]
  | _ => rfl

theorem isUndefined_congr (h : (v == w) = true) : v.isUndefined = w.isUndefined := by
  cases sameKind_of_same h <;> rfl

theorem isStatic_congr (h : (v == w) = true) : Engine.isStatic v = Engine.isStatic w := by
  cases sameKind_of_same h <;> rfl

/-- Equal entries have equal keys. -/
theorem sameItems_keys {es fs : List (Value × Value)} (h : sameEntries es fs = true) :
    sameItems (es.map (·.1)) (fs.map (·.1)) = true := by
  induction es generalizing fs with
  | nil =>
    cases fs with
    | nil => rfl
    | cons f fs => cases h
  | cons e es ih =>
    cases fs with
    | nil => cases h
    | cons f fs =>
      obtain ⟨hhead, htail⟩ := Bool.and_eq_true_iff.1 h
      exact Bool.and_eq_true_iff.2 ⟨(Bool.and_eq_true_iff.1 hhead).1, ih htail⟩

/-- **Equal values have equal elements**, if they have any. -/
theorem elements?_congr (h : (v == w) = true) :
    Option.Rel (fun vs ws => sameItems vs ws = true) v.elements? w.elements? := by
  cases sameKind_of_same h with
  | array xs ys | set xs ys => exact .some h
  | object xs ys => exact .some (sameItems_keys h)
  | _ => exact .none

/-- They have equally many. -/
theorem count?_congr (h : (v == w) = true) : Option.Rel Eq v.count? w.count? := by
  have helements := elements?_congr h
  rw [count?_eq_length, count?_eq_length]
  generalize v.elements? = vs at helements ⊢
  generalize w.elements? = ws at helements ⊢
  cases helements with
  | some hitems => exact .some (sameItems_iff.1 hitems).length_eq
  | none => exact .none

end Value

namespace Platform

variable {v w : Value} (p : Platform)

theorem isInstance_congr_value (h : (v == w) = true) (t : String) :
    p.isInstance v t = p.isInstance w t := by
  have htype := Value.typeName_congr h
  cases Value.sameKind_of_same h with
  | null | undefined => rfl
  | _ => exact congrArg (p.isSubtype · t) htype

theorem adapter?_congr_value (h : (v == w) = true) (target : String) :
    p.adapter? v target = p.adapter? w target := by
  rw [adapter?, adapter?, Value.typeName_congr h]

theorem hasAdapter_congr_value (h : (v == w) = true) (target : String) :
    p.hasAdapter v target = p.hasAdapter w target := by
  rw [hasAdapter, hasAdapter, p.adapter?_congr_value h]

theorem adapterStatus_congr_value (h : (v == w) = true) (target : String) :
    p.adapterStatus v target = p.adapterStatus w target := by
  rw [adapterStatus, adapterStatus, p.adapter?_congr_value h]

end Platform

namespace Engine

/-- A lookup goes by the type of the receiver, and by whether the receiver is itself a type. -/
theorem resolve_congr {v w : Value} (h : (v == w) = true) (namespaceName property : String)
    (force : Bool) :
    resolve v namespaceName property force = resolve w namespaceName property force := by
  funext e
  have hanew (key : PropertyKey) : resolveAnew v key force = resolveAnew w key force := by
    rw [resolveAnew, resolveAnew, Value.isStatic_congr h]
  have hfrom (key : PropertyKey) : resolveFrom v key force = resolveFrom w key force := by
    simp only [resolveFrom, hanew]
  rw [resolve_eq, resolve_eq, Value.typeName_congr h, hfrom]

end Engine

end Enablement
