import Enablement.Proofs.Conversion.Grammar
import Mathlib.Data.List.TakeWhile
/-!
# Reading attributes — the demands of each reading

A reading of attributes is described by what it gives, without the way to it, and by a list of
demands (`Reads`): it gives the one thing that is described if all demands are met, and else the
fault of the first one that is not. Readings one after another have their demands one after another
(`Reads.bind`), so that the order of the faults need not be looked at again.
-/

namespace Enablement

namespace Standard

variable {α β : Type} {n : Node} {ds ds' : List Demand} {P : α → Prop} {r : Except Fault α}

/-- A reading gives the one thing that is described, or else the first fault among the demands, and
then there is no such thing. -/
inductive Reads (n : Node) (ds : List Demand) (P : α → Prop) : Except Fault α → Prop
  | ok {a : α} (met : ds.findSome? (Demand.fault? n) = none) (only : ∀ b, P b ↔ b = a) :
    Reads n ds P (.ok a)
  | error {f : Fault} (first : ds.findSome? (Demand.fault? n) = some f) (nothing : ∀ b, ¬ P b) :
    Reads n ds P (.error f)

namespace Reads

theorem congr {P' : α → Prop} (h : Reads n ds P r) (hP : ∀ a, P' a ↔ P a) : Reads n ds P' r := by
  cases h with
  | ok met only => exact .ok met fun b => (hP b).trans (only b)
  | error first nothing => exact .error first fun b hb => nothing b ((hP b).1 hb)

theorem pure (a : α) : Reads n [] (· = a) (.ok a) := .ok rfl fun _ => Iff.rfl

/-- Demands that are met can be put before. -/
theorem append (met : ds.findSome? (Demand.fault? n) = none) (h : Reads n ds' P r) :
    Reads n (ds ++ ds') P r := by
  have happend : (ds ++ ds').findSome? (Demand.fault? n) = ds'.findSome? (Demand.fault? n) := by
    rw [List.findSome?_append, met]
    rfl
  cases h with
  | ok met' only => exact .ok (happend.trans met') only
  | error first nothing => exact .error (happend.trans first) nothing

/-- What is read after something else has its demands after those. -/
theorem bind {Q : α → β → Prop} {k : α → Except Fault β} (h : Reads n ds P r)
    (hk : ∀ a, P a → Reads n ds' (Q a) (k a)) :
    Reads n (ds ++ ds') (fun b => ∃ a, P a ∧ Q a b) (r >>= k) := by
  cases h with
  | error first nothing =>
    refine .error ?_ fun b ⟨a, ha, _⟩ => nothing a ha
    rw [List.findSome?_append, first]
    rfl
  | @ok a met only =>
    refine ((hk a ((only a).2 rfl)).append met).congr fun b => ?_
    constructor
    · rintro ⟨a', ha', hb⟩
      exact (only a').1 ha' ▸ hb
    · exact fun hb => ⟨a, (only a).2 rfl, hb⟩

/-- What is described is read. -/
theorem eq_ok {a : α} (h : Reads n ds P r) (ha : P a) : r = .ok a := by
  cases h with
  | ok met only => rw [(only a).1 ha]
  | error first nothing => exact absurd ha (nothing a)

end Reads

/-- A reading has the demands whose first fault is its own. -/
theorem reads_of_faultOf (h : ds.findSome? (Demand.fault? n) = faultOf r) :
    Reads n ds (fun a => r = .ok a) r := by
  cases r with
  | ok a => exact .ok h fun b => by rw [Except.ok.injEq, eq_comm]
  | error f => exact .error h fun b hb => nomatch hb

theorem reads_require (n : Node) (attr : String) :
    Reads n [.present attr] (fun text => n.attribute? attr = some text) (n.require attr) := by
  refine (reads_of_faultOf ?_).congr fun text => ?_
  · rw [List.findSome?_singleton, Demand.fault?, Node.require]
    cases n.attribute? attr <;> rfl
  · rw [Node.require]
    cases n.attribute? attr <;> simp

theorem reads_arguments (n : Node) (attr : String) :
    Reads n [.arguments attr] (fun args => n.arguments attr = .ok args) (n.arguments attr) := by
  refine reads_of_faultOf ?_
  rw [List.findSome?_singleton, Demand.fault?, Node.arguments]
  cases n.attribute? attr <;> rfl

theorem reads_literal (n : Node) (attr : String) :
    Reads n [.literal attr] (fun value => n.literal? attr = .ok value) (n.literal? attr) := by
  refine reads_of_faultOf ?_
  rw [List.findSome?_singleton, Demand.fault?, Node.literal?]
  cases n.attribute? attr with
  | none => rfl
  | some text => exact (faultOf_map _ _).symm

theorem reads_resolve (n : Node) :
    Reads n [.present "variable", .arguments "args"]
      (fun a => n.attribute? "variable" = some a.1 ∧ n.arguments "args" = .ok a.2)
      (readResolve n) := by
  refine ((reads_require n "variable").bind fun name _ =>
    (reads_arguments n "args").bind fun args _ => .pure (name, args)).congr fun a => ?_
  constructor
  · rintro ⟨hname, hargs⟩
    exact ⟨a.1, hname, a.2, hargs, rfl⟩
  · rintro ⟨name, hname, args, hargs, rfl⟩
    exact ⟨hname, hargs⟩

theorem reads_systemTest (n : Node) :
    Reads n [.present "property", .present "value"]
      (fun a => n.attribute? "property" = some a.1 ∧ n.attribute? "value" = some a.2)
      (readSystemTest n) := by
  refine ((reads_require n "property").bind fun property _ =>
    (reads_require n "value").bind fun value _ => .pure (property, value)).congr fun a => ?_
  constructor
  · rintro ⟨hproperty, hvalue⟩
    exact ⟨a.1, hproperty, a.2, hvalue, rfl⟩
  · rintro ⟨property, hproperty, value, hvalue, rfl⟩
    exact ⟨hproperty, hvalue⟩

/-- A value that is given is given as a literal. -/
theorem reads_equals (n : Node) :
    Reads n [.present "value", .literal "value"]
      (fun value => ∃ text, n.attribute? "value" = some text ∧
        Argument.convert text.toList = .ok value)
      (readEquals n) := by
  refine (reads_require n "value").bind fun text htext => reads_of_faultOf ?_
  rw [List.findSome?_singleton, Demand.fault?, htext]
  rfl

/-- A missing operator is that of a conjunction. -/
theorem readIterate_eq (n : Node) :
    readIterate n =
      if (n.attribute? "operator").getD "and" ∈ ["and", "or"] then
        .ok (if (n.attribute? "operator").getD "and" = "and" then .and else .or,
          (n.attribute? "ifEmpty").map (equalIgnoringCase · "true"))
      else .error (.wrongAttributeValue "operator" ((n.attribute? "operator").getD "and")
        ["and", "or"]) := by
  rw [readIterate]
  cases n.attribute? "operator" with
  | none => rfl
  | some text =>
    simp only [Option.getD_some, checkAttributeValue]
    split <;> rfl

theorem reads_iterate (n : Node) :
    Reads n [.oneOf "operator" ["and", "or"]]
      (fun a => (n.attribute? "operator").getD "and" = operator a.1 ∧
        a.2 = (n.attribute? "ifEmpty").map (equalIgnoringCase · "true"))
      (readIterate n) := by
  have hfault : [Demand.oneOf "operator" ["and", "or"]].findSome? (Demand.fault? n) =
      if (n.attribute? "operator").getD "and" ∈ ["and", "or"] then none
      else some (.wrongAttributeValue "operator" ((n.attribute? "operator").getD "and")
        ["and", "or"]) := by
    rw [List.findSome?_singleton, Demand.fault?]
    cases n.attribute? "operator" <;> rfl
  rw [readIterate_eq]
  generalize (n.attribute? "operator").getD "and" = text at hfault ⊢
  by_cases h : text ∈ ["and", "or"]
  · rw [if_pos h] at hfault ⊢
    refine .ok hfault fun a => ?_
    rw [Prod.ext_iff, and_congr_left_iff]
    intro _
    obtain ⟨connective, ifEmpty⟩ := a
    obtain rfl | rfl : text = "and" ∨ text = "or" := by simpa using h
    all_goals cases connective <;> simp [operator]
  · rw [if_neg h] at hfault ⊢
    refine .error hfault fun a ⟨ha, _⟩ => h ?_
    rw [ha]
    cases a.1 <;> decide

/-! ## The last point -/

theorem splitAtLastPoint?_append (before : String) {after : String} (h : '.' ∉ after.toList) :
    splitAtLastPoint? (before ++ "." ++ after) = some (before, after) := by
  have hafter : ∀ c ∈ after.toList.reverse, (c != '.') = true := by
    intro c hc
    rw [bne_iff_ne]
    rintro rfl
    exact h (List.mem_reverse.1 hc)
  have hreverse : (before ++ "." ++ after).toList.reverse =
      after.toList.reverse ++ '.' :: before.toList.reverse := by
    simp
  rw [splitAtLastPoint?, hreverse, List.dropWhile_append_of_pos hafter,
    List.takeWhile_append_of_pos hafter]
  simp

/-- A text has no point, or is parted at its last one. -/
theorem splitAtLastPoint?_cases (text : String) :
    ('.' ∉ text.toList ∧ splitAtLastPoint? text = none) ∨
      ∃ before after, text = before ++ "." ++ after ∧ '.' ∉ after.toList := by
  have htext := List.takeWhile_append_dropWhile (p := (· != '.')) (l := text.toList.reverse)
  cases h : text.toList.reverse.dropWhile (· != '.') with
  | nil =>
    left
    refine ⟨fun hmem => ?_, by rw [splitAtLastPoint?, h]⟩
    simpa using List.dropWhile_eq_nil_iff.1 h '.' (List.mem_reverse.2 hmem)
  | cons c before =>
    right
    have hc : c = '.' := by
      have hhead := List.head?_dropWhile_not (· != '.') text.toList.reverse
      rw [h] at hhead
      simpa using hhead
    have hafter : '.' ∉ text.toList.reverse.takeWhile (· != '.') := fun hmem => by
      simpa using List.mem_takeWhile_imp hmem
    generalize text.toList.reverse.takeWhile (· != '.') = after at htext hafter
    refine ⟨String.ofList before.reverse, String.ofList after.reverse, ?_, by simpa using hafter⟩
    rw [← String.toList_inj, ← List.reverse_inj, ← htext, h, hc]
    simp

theorem reads_test (n : Node) :
    Reads n [.present "property", .qualified "property", .arguments "args", .literal "value"]
      (fun t => n.attribute? "property" = some t.qualified ∧ '.' ∉ t.property.toList ∧
        n.arguments "args" = .ok t.args ∧ n.literal? "value" = .ok t.expected ∧
        t.force = n.isTrue "forcePluginActivation")
      (readTest n) := by
  refine ((reads_require n "property").bind (Q := fun text t => text = t.qualified ∧
    '.' ∉ t.property.toList ∧ n.arguments "args" = .ok t.args ∧
    n.literal? "value" = .ok t.expected ∧ t.force = n.isTrue "forcePluginActivation")
    fun text htext => ?_).congr fun t => ?_
  · obtain ⟨hpoint, hsplit⟩ | ⟨namespaceName, property, rfl, hproperty⟩ :=
      splitAtLastPoint?_cases text
    · rw [hsplit]
      refine .error (f := .noNamespace text) ?_ ?_
      · rw [List.findSome?_cons, Demand.fault?, htext, Option.bind_some, if_neg hpoint]
      · rintro t ⟨rfl, -⟩
        exact hpoint (by simp [PropertyTest.qualified])
    · rw [splitAtLastPoint?_append namespaceName hproperty]
      have hpoint : [Demand.qualified "property"].findSome? (Demand.fault? n) = none := by
        rw [List.findSome?_singleton, Demand.fault?, htext, Option.bind_some, if_pos (by simp)]
      refine .append hpoint (((reads_arguments n "args").bind fun args _ =>
        (reads_literal n "value").bind fun expected _ => .pure (PropertyTest.mk namespaceName
          property args expected (n.isTrue "forcePluginActivation"))).congr fun t => ?_)
      constructor
      · rintro ⟨hqualified, ht, hargs, hexpected, hforce⟩
        refine ⟨t.args, hargs, t.expected, hexpected, ?_⟩
        -- a text is parted in one way only
        have hparts := splitAtLastPoint?_append namespaceName hproperty
        rw [hqualified, PropertyTest.qualified, splitAtLastPoint?_append _ ht] at hparts
        cases t
        cases hparts
        cases hforce
        rfl
      · rintro ⟨args, hargs, expected, hexpected, rfl⟩
        exact ⟨rfl, hproperty, hargs, hexpected, rfl⟩
  · constructor
    · rintro ⟨hqualified, h⟩
      exact ⟨_, hqualified, rfl, h⟩
    · rintro ⟨text, hqualified, rfl, h⟩
      exact ⟨hqualified, h⟩

end Standard

end Enablement
