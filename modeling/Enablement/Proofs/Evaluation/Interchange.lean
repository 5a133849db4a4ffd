import Enablement.Proofs.Evaluation.Parallel
import Enablement.Proofs.Evaluation.Reset
import Enablement.Proofs.Expr.Replacing
/-!
# Evaluation — equal expressions are interchangeable

Equality is looser than identity: it does not tell a number from the same number written with a
point. On a host that does not tell them apart either, nothing does: equal expressions end alike,
and the engines that they leave behind cannot be told apart afterwards. Nor can an expression and
what it becomes when one of its parts is replaced by an equal one (`evaluate_interchangeable`).
-/

namespace Enablement

namespace Engine

variable {a b : Expr}

/-- Engines that differ in equal values in their journals cannot be told apart. -/
theorem Twins.observe_eq {e e' : Engine} (h : e.Twins e') (next : List Deed) :
    observe next e = observe next e' :=
  observe_congr h.rest.symm next

/-- Two expressions that are as good as each other on a respectful host: they end alike, leave
engines that differ in nothing but equal values in their journals, and so have the same answers
follow. -/
def Interchangeable (a b : Expr) : Prop :=
  ∀ (c : Context) (e : Engine), c.Respectful → e.Respectful →
    (evaluate a c e).1 = (evaluate b c e).1 ∧ (evaluate a c e).2.Twins (evaluate b c e).2 ∧
      ∀ next, observe next (evaluate a c e).2 = observe next (evaluate b c e).2

theorem interchangeable_of_same (h : a.same b = true) : Interchangeable a b := by
  intro c e hc he
  obtain ⟨hend, htwins⟩ := evaluate_parallel h c c hc.equalAnswers e e he.twins
  exact ⟨hend, htwins, htwins.observe_eq⟩

/-- **Equal expressions are interchangeable.** In every context and engine whose resolvers, testers
and adapters give equal answers for equal values, they have the same outcome, ask testers about
equal values, and leave engines that answer alike from then on; and if their references are linked
alike, they look at the same. So do an expression and the same expression with a part replaced by an
equal one, wherever the part stands. -/
theorem evaluate_interchangeable (h : (a == b) = true) :
    Interchangeable a b ∧ (a.linkage = b.linkage → ∀ e, access a e = access b e) ∧
    ∀ (x : Expr) (path : List Nat), x.part? path = some a →
      Interchangeable x (x.replaceAt path b) ∧
      (a.linkage = b.linkage → ∀ e, access x e = access (x.replaceAt path b) e) := by
  refine ⟨interchangeable_of_same h, access_congr h, fun x path hx => ?_⟩
  -- what is replaced in the whole needs no argument of its own: the whole stays equal
  have hwhole := Expr.same_replaceAt h hx
  exact ⟨interchangeable_of_same hwhole,
    fun hl => access_congr hwhole (Expr.linkage_replaceAt hl hx).symm⟩

/-! ## Three, with and without a point -/

/-- Answers whether the receiver is the first argument, up to equality. -/
def firstArgument : Tester := fun receiver _ args _ => args.head?.any (receiver == ·)

theorem respectful_firstArgument : firstArgument.Respectful := by
  intro property v w args args' expected expected' hv hargs hexpected
  cases Value.sameItems_iff.1 hargs with
  | nil => rfl
  | cons harg _ => exact (BEq.congr_left hv).trans (BEq.congr_right harg)

/-- A host whose numbers have this tester. -/
def numberHost : Platform :=
  { classes := .ofList [("FirstTester", .tester firstArgument)] }

/-- An engine on it where the tester is registered. -/
def numberEngine : Engine :=
  run [.addTesters [.ofFields "t" "number" "ns" "is" "FirstTester" "c"]]
    { platform := numberHost, handlers := [] }

theorem respectful_numberEngine : numberEngine.Respectful := by
  have hmade : make numberHost {} [] = .ok { platform := numberHost, handlers := [] } := rfl
  refine respectful_run hmade ?_ nofun _
  intro className run hrun
  rw [numberHost, NameMap.ofList, List.foldl_cons, List.foldl_nil, NameMap.find?_insert] at hrun
  split at hrun
  · cases hrun
    exact respectful_firstArgument
  · cases hrun

/-- Asks whether a number is a given one. -/
def isNumber (n : Number) : Expr :=
  .test { namespaceName := "ns", property := "is", args := [.number n], force := true }

/-- Asked of three, where contributors may be activated. -/
def ofThree : Context := [.frame { defaultVariable := .ofNat 3, allowActivation := some true }]

/-- The question whether a number is three is answered alike when three is written with a point, and
so is every condition that asks it. -/
theorem isNumber_interchangeable :
    let three := isNumber (.int 3)
    let point := isNumber (.float ⟨0x4008000000000000⟩)
    let whole := Expr.and [.equals (.ofNat 3), .not (.or [.constant false, three])]
    (evaluate three ofThree numberEngine).1 = .ok .yes ∧
      (evaluate point ofThree numberEngine).1 = .ok .yes ∧
      access three numberEngine = access point numberEngine ∧
      ∀ next, observe next (evaluate whole ofThree numberEngine).2 =
        observe next (evaluate (whole.replaceAt [1, 0, 1] point) ofThree numberEngine).2 := by
  intro three point whole
  obtain ⟨hinter, haccess, hwhole⟩ :=
    evaluate_interchangeable (a := three) (b := point) (by decide)
  have hcontext : ofThree.Respectful := by
    intro f hf r hr
    obtain rfl := List.mem_singleton.1 hf
    cases hr
  have hthree : (evaluate three ofThree numberEngine).1 = .ok .yes := rfl
  obtain ⟨hend, -, -⟩ := hinter ofThree numberEngine hcontext respectful_numberEngine
  obtain ⟨hreplaced, -⟩ := hwhole whole [1, 0, 1] rfl
  exact ⟨hthree, hend.symm.trans hthree, haccess rfl numberEngine,
    (hreplaced ofThree numberEngine hcontext respectful_numberEngine).2.2⟩

end Engine

end Enablement
