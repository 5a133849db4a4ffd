import Enablement.Proofs.Evaluation.Blind
import Enablement.Proofs.Evaluation.Visits
import Enablement.Proofs.Registry.Run
/-!
# Evaluation — rewriting logical expressions

Double negation, De Morgan's laws, and conjunctions in conjunctions and disjunctions in disjunctions
can be rewritten without a trace: the same parts are visited in the same engines, and the outcome,
the fault and the engine in the end are the same (`Engine.rewriting_agrees`). All of it comes from
laws of the loop that joins outcomes, which hold for acts of any kind. A disjunction of nothing is
true, so where one could come up the laws need a part. The root of a condition may stand for a
conjunction, but for the log line that it may leave.
-/

namespace Enablement

/-! ## Laws of the loop -/

namespace Connective

/-- The connective that a negation turns a connective into. -/
def dual : Connective → Connective
  | .and => .or
  | .or => .and

theorem not_join (o : Connective) (t u : Truth) : (o.join t u).not = o.dual.join t.not u.not := by
  cases o with
  | and => exact Truth.not_and t u
  | or => exact Truth.not_or t u

theorem not_eq_dual_stop_iff (o : Connective) (t : Truth) : t.not = o.dual.stop ↔ t = o.stop := by
  cases o <;> cases t <;> decide

variable {m : Type → Type} [Monad m] [LawfulMonad m] {o : Connective} {t u : Truth}

/-- Acts behind others go on with the outcome of those, unless it settles everything. -/
theorem joinAll_append (ht : t ≠ o.stop) (xs ys : List (m Truth)) :
    o.joinAll t (xs ++ ys) =
      o.joinAll t xs >>= fun u => if u = o.stop then pure u else o.joinAll u ys := by
  induction xs generalizing t with
  | nil => rw [List.nil_append, joinAll, pure_bind, if_neg ht]
  | cons x xs ih =>
    rw [List.cons_append, joinAll, joinAll, bind_assoc]
    congr 1
    funext a
    by_cases hstop : o.join t a = o.stop
    · simp only [if_pos hstop, pure_bind]
    · simp only [if_neg hstop]
      exact ih hstop

/-- The outcome so far can as well be joined in the end. -/
theorem joinAll_join (ht : t ≠ o.stop) (xs : List (m Truth)) :
    o.joinAll (o.join t u) xs = o.join t <$> o.joinAll u xs := by
  induction xs generalizing u with
  | nil => rw [joinAll, joinAll, map_pure]
  | cons x xs ih =>
    rw [joinAll, joinAll, map_bind]
    congr 1
    funext a
    have hstops : o.join t (o.join u a) = o.stop ↔ o.join u a = o.stop := by
      rw [join_eq_stop_iff, or_iff_right ht]
    simp only [o.join_assoc, hstops]
    split
    · rw [map_pure]
    · exact ih

/-- **A loop within a loop of the same connective** is one loop. -/
theorem joinAll_flatten (ht : t ≠ o.stop) (xs ys zs : List (m Truth)) :
    o.joinAll t (xs ++ [o.joinAll o.neutral ys] ++ zs) = o.joinAll t (xs ++ ys ++ zs) := by
  have hinner {u : Truth} (hu : u ≠ o.stop) :
      o.joinAll u (o.joinAll o.neutral ys :: zs) = o.joinAll u (ys ++ zs) := by
    have hys : o.joinAll u ys = o.join u <$> o.joinAll o.neutral ys := by
      rw [← joinAll_join hu, o.join_neutral_right]
    rw [joinAll_append hu, hys, bind_map_left, joinAll]
  rw [List.append_assoc, List.append_assoc, joinAll_append ht, joinAll_append ht]
  congr 1
  funext u
  split
  · rfl
  · next hu => exact hinner hu

/-- **De Morgan's laws**: the negation of a loop is the loop of the negations. -/
theorem not_joinAll (o : Connective) (t : Truth) (xs : List (m Truth)) :
    Truth.not <$> o.joinAll t xs = o.dual.joinAll t.not (xs.map (Truth.not <$> ·)) := by
  induction xs generalizing t with
  | nil => rw [joinAll, map_pure, List.map_nil, joinAll]
  | cons x xs ih =>
    rw [List.map_cons, joinAll, joinAll, map_bind, bind_map_left]
    congr 1
    funext a
    simp only [← o.not_join, not_eq_dual_stop_iff]
    split
    · rw [map_pure]
    · exact ih _

end Connective

/-! ## Laws of compound conditions -/

namespace Compound

variable {link : String → Meaning} {ctx : Context} {cs ys : List Compound}

theorem visiting_and (cs : List Compound) : (Compound.and cs).visiting link ctx =
    Connective.and.joinAll .yes (cs.map (visiting link ctx)) := by
  rw [visiting, visitings_eq_map]

theorem visiting_or (hcs : cs ≠ []) : (Compound.or cs).visiting link ctx =
    Connective.or.joinAll .no (cs.map (visiting link ctx)) := by
  have hempty : cs.isEmpty = false := by simp [hcs]
  rw [visiting, hempty, if_neg Bool.false_ne_true, visitings_eq_map]

theorem map_visiting_not (cs : List Compound) : (cs.map Compound.not).map (visiting link ctx) =
    (cs.map (visiting link ctx)).map (Truth.not <$> ·) := by
  rw [List.map_map, List.map_map]
  rfl

theorem visiting_not_and (hcs : cs ≠ []) : (Compound.not (.and cs)).visiting link ctx =
    (Compound.or (cs.map .not)).visiting link ctx := by
  have hmap : cs.map Compound.not ≠ [] := by simpa using hcs
  rw [visiting_or hmap, map_visiting_not, visiting, visiting_and]
  exact Connective.and.not_joinAll .yes _

theorem visiting_not_or (hcs : cs ≠ []) : (Compound.not (.or cs)).visiting link ctx =
    (Compound.and (cs.map .not)).visiting link ctx := by
  rw [visiting_and, map_visiting_not, visiting, visiting_or hcs]
  exact Connective.or.not_joinAll .no _

theorem visiting_not_not (c : Compound) :
    (Compound.not (.not c)).visiting link ctx = c.visiting link ctx := by
  rw [visiting, visiting, ← comp_map]
  have hid : Truth.not ∘ Truth.not = id := funext Truth.not_not
  rw [hid, id_map]

theorem visiting_and_and (xs ys zs : List Compound) :
    (Compound.and (xs ++ [.and ys] ++ zs)).visiting link ctx =
      (Compound.and (xs ++ ys ++ zs)).visiting link ctx := by
  simp only [visiting_and, List.map_append, List.map_cons, List.map_nil]
  exact Connective.joinAll_flatten (o := .and) Connective.and.neutral_ne_stop _ _ _

theorem visiting_or_or (xs : List Compound) (hys : ys ≠ []) (zs : List Compound) :
    (Compound.or (xs ++ [.or ys] ++ zs)).visiting link ctx =
      (Compound.or (xs ++ ys ++ zs)).visiting link ctx := by
  have hnested : xs ++ [.or ys] ++ zs ≠ [] := by simp
  have hflat : xs ++ ys ++ zs ≠ [] := by simp [hys]
  rw [visiting_or hnested, visiting_or hflat]
  simp only [List.map_append, List.map_cons, List.map_nil, visiting_or hys]
  exact Connective.joinAll_flatten (o := .or) Connective.or.neutral_ne_stop _ _ _

end Compound

/-! ## Conjunctions that are roots -/

namespace Compound

open Visiting (Alike)

variable {R : Engine → Engine → Prop} {link : String → Meaning} {ctx : Context}

/-- **The root of a condition may stand for a conjunction** within another, but for the log. -/
theorem alike_and_enablement (hR : Engine.IgnoresLog R)
    (hpart : ∀ x, Alike R (.part x (x.meaning link ctx)) (.part x (x.meaning link ctx)))
    (xs ys zs : List Compound) :
    Alike R ((Compound.and (xs ++ [.enablement ys] ++ zs)).visiting link ctx)
      ((Compound.and (xs ++ ys ++ zs)).visiting link ctx) := by
  have hself (cs : List Compound) :
      List.Forall₂ (Alike R) (cs.map (visiting link ctx)) (cs.map (visiting link ctx)) := by
    rw [← visitings_eq_map]
    exact forall₂_alike_self hR hpart cs
  have hroot : Alike R ((Compound.enablement ys).visiting link ctx)
      ((Compound.and ys).visiting link ctx) := (alike_self hR hpart (.and ys)).logged_left hR
  rw [← visiting_and_and xs ys zs, visiting_and, visiting_and]
  refine .joinAll ?_ .and .yes
  simp only [List.map_append, List.map_cons, List.map_nil]
  exact List.rel_append (List.rel_append (hself xs) (.cons hroot .nil)) (hself zs)

end Compound

/-! ## What the log tells -/

/-- Whether an event is the log line with the outcome of a condition. -/
def Event.tellsOutcome : Event → Bool
  | .noted (.evaluated _) => true
  | _ => false

namespace Engine

open Visiting (Agree)

/-- The engine without the log lines that tell the outcomes of conditions. -/
def unlogged (e : Engine) : Engine := { e with journal := e.journal.filter (!·.tellsOutcome) }

/-- Two engines differ at most in log lines that tell the outcomes of conditions. -/
def SameButLog (d d' : Engine) : Prop := d.unlogged = d'.unlogged

theorem unlogged_noteOutcome (e : Engine) (r : Except Fault Truth) :
    (e.noteOutcome r).unlogged = e.unlogged := by
  rw [noteOutcome]
  split
  · rw [unlogged, unlogged, note, record, List.filter_append]
    simp [Event.tellsOutcome]
  · rfl

theorem unlogged_behind (e : Engine) (earlier : List Event) :
    (e.behind earlier).unlogged = e.unlogged.behind (earlier.filter (!·.tellsOutcome)) := by
  rw [unlogged, unlogged, behind, behind, List.filter_append]

theorem ignoresLog_sameButLog : IgnoresLog SameButLog where
  left r h := (unlogged_noteOutcome _ r).trans h
  right r h := h.trans (unlogged_noteOutcome _ r).symm

/-- What does not see what has been recorded does not see the log. -/
theorem sameButLog_of_unseeing {act : Act Truth}
    (hact : ∀ earlier, Act.Unseeing (·.behind earlier) act) (d d' : Engine) (h : SameButLog d d') :
    (act d).1 = (act d').1 ∧ SameButLog (act d).2 (act d').2 := by
  -- both engines are one engine that has recorded nothing, behind what they have recorded
  have hrest : { d with journal := [] } = { d' with journal := [] } :=
    congrArg (fun e : Engine => { e with journal := [] }) h
  have hjournal : d.journal.filter (!·.tellsOutcome) = d'.journal.filter (!·.tellsOutcome) :=
    congrArg journal h
  rw [Act.run_of_unseeing hact d, Act.run_of_unseeing hact d', hrest]
  refine ⟨rfl, ?_⟩
  rw [SameButLog, unlogged_behind, unlogged_behind, hjournal]

/-- Two engines are one, whose evaluation is not traced. -/
def SameUntraced (d d' : Engine) : Prop := d = d' ∧ d.options.traceEvaluation = false

theorem noteOutcome_of_untraced {e : Engine} (he : e.options.traceEvaluation = false)
    (r : Except Fault Truth) : e.noteOutcome r = e := by
  rw [noteOutcome, he, if_neg Bool.false_ne_true]

theorem ignoresLog_sameUntraced : IgnoresLog SameUntraced where
  left r h := by
    rw [noteOutcome_of_untraced h.2]
    exact h
  right r h := by
    rw [noteOutcome_of_untraced (h.1 ▸ h.2)]
    exact h

/-! ## Rewriting -/

/-- The parts of a condition that its evaluation visits, each with the engine it is evaluated in. -/
def visits (e : Engine) (c : Compound) (ctx : Context) : List (Expr × Engine) :=
  (c.visiting (linkWithin (e.referenceDepth + maxReentries)) ctx e).visits

/-- How the evaluation of a condition goes, with the parts that it visits. -/
def course (e : Engine) (c : Compound) (ctx : Context) : Course Truth :=
  ⟨(evaluate c.expr ctx e).1, (evaluate c.expr ctx e).2, e.visits c ctx⟩

variable {ctx : Context} {e : Engine}

theorem course_eq (c : Compound) :
    e.course c ctx = c.visiting (linkWithin (e.referenceDepth + maxReentries)) ctx e := by
  have herase : evaluate c.expr ctx e =
      (c.visiting (linkWithin (e.referenceDepth + maxReentries)) ctx).erase e :=
    (congrFun c.erase_visiting e).symm
  rw [course, visits, herase]
  rfl

theorem agree_of_eq {a b : Compound} (h : ∀ link, a.visiting link ctx = b.visiting link ctx) :
    Agree Eq (e.course a ctx) (e.course b ctx) := by
  rw [course_eq, course_eq, h]
  exact .refl _

/-- A part evaluates alike whatever the log tells. -/
theorem alike_part_sameButLog (depth : ℕ) (x : Expr) :
    Visiting.Alike SameButLog (.part x (x.meaning (linkWithin depth) ctx))
      (.part x (x.meaning (linkWithin depth) ctx)) :=
  .part (sameButLog_of_unseeing fun earlier =>
    (meaning_behind earlier (linkWithin_behind earlier depth) x).same ctx) x

/-- Evaluation does not begin to be traced. -/
theorem alike_part_sameUntraced (depth : ℕ) (x : Expr) :
    Visiting.Alike SameUntraced (.part x (x.meaning (linkWithin depth) ctx))
      (.part x (x.meaning (linkWithin depth) ctx)) := by
  refine .part (fun d d' ⟨hd, huntraced⟩ => ?_) x
  have hoptions : (x.meaning (linkWithin depth) ctx d).2.options = d.options :=
    x.meaning_keeps (steady_options d.options) (linkWithin_keeps (steady_options _) depth) ctx d rfl
  rw [← hd]
  exact ⟨rfl, rfl, by rw [hoptions, huntraced]⟩

/-- **Logical expressions can be rewritten.** Negations of conjunctions and disjunctions of at least
one condition, double negations, conjunctions within conjunctions, and disjunctions of at least one
condition within disjunctions agree with what they are rewritten to, in every context and engine. So
do the roots of conditions within conjunctions, if evaluation is not traced; if it is, they agree
but for the log lines that tell outcomes. -/
theorem rewriting_agrees (ctx : Context) (e : Engine) :
    (∀ cs : List Compound, cs ≠ [] →
      Agree Eq (e.course (.not (.and cs)) ctx) (e.course (.or (cs.map .not)) ctx) ∧
      Agree Eq (e.course (.not (.or cs)) ctx) (e.course (.and (cs.map .not)) ctx)) ∧
    (∀ c : Compound, Agree Eq (e.course (.not (.not c)) ctx) (e.course c ctx)) ∧
    ∀ xs ys zs : List Compound,
      let flat := e.course (.and (xs ++ ys ++ zs)) ctx
      let rooted := e.course (.and (xs ++ [.enablement ys] ++ zs)) ctx
      Agree Eq (e.course (.and (xs ++ [.and ys] ++ zs)) ctx) flat ∧
      Agree SameButLog rooted flat ∧
      (e.options.traceEvaluation = false → Agree Eq rooted flat) ∧
      (ys ≠ [] → Agree Eq (e.course (.or (xs ++ [.or ys] ++ zs)) ctx)
        (e.course (.or (xs ++ ys ++ zs)) ctx)) := by
  refine ⟨fun cs hcs => ⟨?_, ?_⟩, fun c => ?_, fun xs ys zs => ⟨?_, ?_, fun huntraced => ?_,
    fun hys => ?_⟩⟩
  · exact agree_of_eq fun link => Compound.visiting_not_and hcs
  · exact agree_of_eq fun link => Compound.visiting_not_or hcs
  · exact agree_of_eq fun link => c.visiting_not_not
  · exact agree_of_eq fun link => Compound.visiting_and_and xs ys zs
  · rw [course_eq, course_eq]
    exact Compound.alike_and_enablement ignoresLog_sameButLog (alike_part_sameButLog _) xs ys zs
      e e rfl
  · rw [course_eq, course_eq]
    exact (Compound.alike_and_enablement ignoresLog_sameUntraced (alike_part_sameUntraced _)
      xs ys zs e e ⟨rfl, huntraced⟩).mono fun d d' h => h.1
  · exact agree_of_eq fun link => Compound.visiting_or_or xs hys zs

/-- A part that leaves an entry of its own. -/
def partOf (label outcome : String) : Compound := .part (.fixed (some label) outcome)

/-- A negated conjunction visits its parts up to the false one, as the disjunction of the negations
does; a root within a conjunction visits them as if it were not there. -/
theorem rewriting_agrees_three :
    let cs := [partOf "a" "NOT_LOADED", partOf "b" "FALSE", partOf "c" "TRUE"]
    let e : Engine := {}
    let e₁ := e.record (.fixed (some "a") "NOT_LOADED" .null)
    cs ≠ [] ∧ Agree Eq (e.course (.not (.and cs)) []) (e.course (.or (cs.map .not)) []) ∧
      e.visits (.or (cs.map .not)) [] =
        [(.fixed (some "a") "NOT_LOADED", e), (.fixed (some "b") "FALSE", e₁)] ∧
      Agree Eq (e.course (.and ([partOf "d" "TRUE"] ++ [.enablement cs] ++ [])) [])
        (e.course (.and ([partOf "d" "TRUE"] ++ cs ++ [])) []) ∧
      Agree Eq (e.course (.or ([] ++ [.or cs] ++ cs)) []) (e.course (.or ([] ++ cs ++ cs)) []) := by
  intro cs e e₁
  have hne : cs ≠ [] := List.cons_ne_nil _ _
  obtain ⟨hnot, -, hflat⟩ := rewriting_agrees [] e
  obtain ⟨hand, -⟩ := hnot cs hne
  obtain ⟨-, -, hroot, -⟩ := hflat [partOf "d" "TRUE"] cs []
  obtain ⟨-, -, -, hor⟩ := hflat [] cs cs
  exact ⟨hne, hand, rfl, hroot rfl, hor hne⟩

end Engine

end Enablement
