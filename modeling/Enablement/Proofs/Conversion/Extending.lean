import Enablement.Convert.Hosted
import Enablement.Convert.Standard
import Enablement.Proofs.Conversion.Outcome
/-!
# More handlers — a converter is extended conservatively

A handler that is put behind others is asked only about elements that none of those knows. Yet it
takes part in the conversion of every child, so the two converters are compared down the whole tree:
a conversion stays as it is unless it ended at an element that nobody knew (`Kept`). A plan comes
upon the results for the children in the same order under both, and the first fault ends it, so
whatever it is followed with is kept by following it (`follow_kept`).

Which handler is responsible for what is a relation of its own (`Answered`): an element is answered
by the plan of the first handler that knows it, and this plan is followed with answers for the
children.
-/

namespace Enablement.Converter

/-! ## What more handlers leave as it is -/

section Kept

variable {α β : Type}

/-- A result stays the same, unless it was that no handler knows some element. -/
inductive Kept : Except Fault α → Except Fault α → Prop
  | same (r : Except Fault α) : Kept r r
  | unhandled (name : String) (r : Except Fault α) :
    Kept (.error (.missingExpression (.unhandled name))) r

theorem Kept.map {r r' : Except Fault α} (h : Kept r r') (g : α → β) :
    Kept (r.map g) (r'.map g) := by
  cases h with
  | same => exact .same _
  | unhandled name => exact .unhandled name _

/-- Results one after another are kept if each of them is. -/
theorem mapM_kept {rs rs' : List (Except Fault α)} (h : List.Forall₂ Kept rs rs') :
    Kept (rs.mapM id) (rs'.mapM id) := by
  induction h with
  | nil => exact .same _
  | @cons r r' rs rs' hr _ ih =>
    cases hr with
    | unhandled name =>
      rw [mapM_cons_of_error (f := id) rfl]
      exact .unhandled name _
    | same =>
      cases r with
      | error f =>
        rw [mapM_cons_of_error (f := id) rfl, mapM_cons_of_error (f := id) rfl]
        exact .same _
      | ok a =>
        rw [mapM_cons_of_ok (f := id) rfl, mapM_cons_of_ok (f := id) rfl]
        exact ih.map _

end Kept

variable {ns : List Node} {plan : Plan} {r : Except Fault Expr} {rs rs' : List (Except Fault Expr)}

theorem getElem?_kept (h : List.Forall₂ Kept rs rs') (place : ℕ) :
    Option.Rel Kept rs[place]? rs'[place]? := by
  induction h generalizing place with
  | nil => exact .none
  | cons hr _ ih =>
    cases place with
    | zero => exact .some hr
    | succ place => exact ih place

/-- **What a plan makes of kept results is kept.** -/
theorem follow_kept (h : List.Forall₂ Kept rs rs') (plan : Plan) :
    Kept (plan.follow rs) (plan.follow rs') := by
  induction plan with
  | leaf result => exact .same result
  | only build =>
    rw [Plan.follow, Plan.follow]
    refine Kept.map ?_ build
    by_cases hlength : rs.length = 1
    · obtain ⟨r, rfl⟩ := List.length_eq_one_iff.1 hlength
      obtain ⟨r', rs'', hr, hnil, rfl⟩ := List.forall₂_cons_left_iff.1 h
      obtain rfl := List.forall₂_nil_left_iff.1 hnil
      exact hr
    · rw [Plan.onlyOf_of_length_ne hlength, Plan.onlyOf_of_length_ne (h.length_eq ▸ hlength),
        h.length_eq]
      exact .same _
  | child place next ih =>
    have hplace := getElem?_kept h place
    rw [Plan.follow, Plan.follow]
    generalize rs[place]? = r? at hplace ⊢
    generalize rs'[place]? = r'? at hplace ⊢
    cases hplace with
    | none => exact ih none
    | @some r r' hr =>
      cases hr with
      | unhandled name => exact .unhandled name _
      | same =>
        cases r with
        | error f => exact .same _
        | ok x => exact ih (some x)
  | _ build =>
    rw [Plan.follow, Plan.follow]
    exact (mapM_kept h).map build

/-- What is planned is planned as before, and what nobody knew may be known to more handlers. -/
theorem plan?_append (linked : Bool) (hs extra : List Handler) (n : Node) :
    (⟨hs ++ extra, linked⟩ : Converter).plan? n =
      ((⟨hs, linked⟩ : Converter).plan? n).or ((⟨extra, linked⟩ : Converter).plan? n) :=
  List.findSome?_append

/-- **More handlers keep what becomes of an element.** -/
theorem convert_kept (linked : Bool) (hs extra : List Handler) (n : Node) :
    Kept ((⟨hs, linked⟩ : Converter).convert n)
      ((⟨hs ++ extra, linked⟩ : Converter).convert n) := by
  induction n using Node.inductionOn with
  | step n ih =>
  have hbelow : List.Forall₂ Kept (n.children.map (⟨hs, linked⟩ : Converter).convert)
      (n.children.map (⟨hs ++ extra, linked⟩ : Converter).convert) := by
    rw [List.forall₂_map_left_iff, List.forall₂_map_right_iff, List.forall₂_same]
    exact ih
  rw [convert_eq_follow, convert_eq_follow, plan?_append]
  cases (⟨hs, linked⟩ : Converter).plan? n with
  | none => exact .unhandled n.name _
  | some plan => exact follow_kept hbelow plan

/-! ## Who answers for an element -/

/-- How a plan turns out over the children of an element, where a relation tells what becomes of
each child. -/
inductive Follows (R : Node → Except Fault Expr → Prop) :
    List Node → Plan → Except Fault Expr → Prop
  | leaf {ns : List Node} (result : Except Fault Expr) : Follows R ns (.leaf result) result
  | only {n : Node} {build : Expr → Expr} {r : Except Fault Expr} (hr : R n r) :
    Follows R [n] (.only build) (r.map build)
  | notOne {ns : List Node} {build : Expr → Expr} (hns : ns.length ≠ 1) :
    Follows R ns (.only build) (.error (.missingExpression (.notOneChild ns.length)))
  | all {ns : List Node} {build : List Expr → Expr} {xs : List Expr}
    (hxs : List.Forall₂ (fun n x => R n (.ok x)) ns xs) :
    Follows R ns (.over build) (.ok (build xs))
  | allFault {before after : List Node} {n : Node} {build : List Expr → Expr} {xs : List Expr}
    {f : Fault} (hxs : List.Forall₂ (fun n x => R n (.ok x)) before xs) (hf : R n (.error f)) :
    Follows R (before ++ n :: after) (.over build) (.error f)
  | noChild {ns : List Node} {place : ℕ} {next : Option Expr → Plan} {r : Except Fault Expr}
    (hplace : ns[place]? = none) (hr : Follows R ns (next none) r) :
    Follows R ns (.child place next) r
  | child {ns : List Node} {place : ℕ} {next : Option Expr → Plan} {n : Node} {x : Expr}
    {r : Except Fault Expr} (hplace : ns[place]? = some n) (hx : R n (.ok x))
    (hr : Follows R ns (next (some x)) r) : Follows R ns (.child place next) r
  | childFault {ns : List Node} {place : ℕ} {next : Option Expr → Plan} {n : Node} {f : Fault}
    (hplace : ns[place]? = some n) (hf : R n (.error f)) :
    Follows R ns (.child place next) (.error f)

/-- What becomes of an element that handlers are asked about one after another: nobody knows it, or
the first that knows it plans it, and the plan turns out over children that are answered
likewise. -/
inductive Answered (linked : Bool) (hs : List Handler) : Node → Except Fault Expr → Prop
  | unhandled {n : Node} (declined : ∀ h ∈ hs, h.plan? linked n = none) :
    Answered linked hs n (.error (.missingExpression (.unhandled n.name)))
  | handled {n : Node} {before after : List Handler} {h : Handler} {plan : Plan}
    {r : Except Fault Expr} (split : hs = before ++ h :: after)
    (declined : ∀ h' ∈ before, h'.plan? linked n = none) (known : h.plan? linked n = some plan)
    (follows : Follows (Answered linked hs) n.children plan r) : Answered linked hs n r

variable {R : Node → Except Fault Expr → Prop} {g : Node → Except Fault Expr}

/-- Children that turn out well one after another do so as they are followed with. -/
theorem mapM_of_answers {xs : List Expr} (hxs : List.Forall₂ (fun n x => R n (.ok x)) ns xs)
    (hR : ∀ n ∈ ns, ∀ r, R n r → g n = r) : ns.mapM g = .ok xs := by
  refine mapM_eq_ok_iff.2 ?_
  have hmem : List.Forall₂ (fun n x => n ∈ ns ∧ R n (.ok x)) ns xs :=
    (List.forall₂_and_left _ _).2 ⟨fun _ hn => hn, hxs⟩
  exact hmem.imp fun n x h => hR n h.1 _ h.2

/-- And the other way round. -/
theorem answers_of_mapM {xs : List Expr} (hxs : ns.mapM g = .ok xs) (hR : ∀ n ∈ ns, R n (g n)) :
    List.Forall₂ (fun n x => R n (.ok x)) ns xs := by
  have hmem : List.Forall₂ (fun n x => n ∈ ns ∧ g n = .ok x) ns xs :=
    (List.forall₂_and_left _ _).2 ⟨fun _ hn => hn, mapM_eq_ok_iff.1 hxs⟩
  exact hmem.imp fun n x h => h.2 ▸ hR n h.1

/-- A plan turns out as following it says, if the children do as they are followed with. -/
theorem Follows.follow_eq (h : Follows R ns plan r) (hR : ∀ n ∈ ns, ∀ r, R n r → g n = r) :
    plan.follow (ns.map g) = r := by
  induction h with
  | leaf result => rfl
  | only hr =>
    rw [← hR _ List.mem_cons_self _ hr]
    rfl
  | notOne hns =>
    rw [Plan.follow, Plan.onlyOf_of_length_ne (by rwa [List.length_map]), List.length_map]
    rfl
  | all hxs =>
    rw [Plan.follow, List.mapM_map]
    exact congrArg (Except.map _) (mapM_of_answers hxs hR)
  | @allFault before after n build xs f hxs hf =>
    have hbefore := mapM_of_answers hxs fun m hm => hR m (List.mem_append_left _ hm)
    have hn := hR n (List.mem_append_right _ List.mem_cons_self) _ hf
    have hfault : (before ++ n :: after).mapM g = .error f := by
      rw [List.mapM_append, hbefore, mapM_cons_of_error hn]
      rfl
    rw [Plan.follow, List.mapM_map]
    exact congrArg (Except.map build) hfault
  | noChild hplace _ ih =>
    rw [Plan.follow, List.getElem?_map, hplace]
    exact ih hR
  | child hplace hx _ ih =>
    have hchild := hR _ (List.mem_of_getElem? hplace) _ hx
    rw [Plan.follow, List.getElem?_map, hplace, Option.map_some, hchild]
    exact ih hR
  | childFault hplace hf =>
    have hchild := hR _ (List.mem_of_getElem? hplace) _ hf
    rw [Plan.follow, List.getElem?_map, hplace, Option.map_some, hchild]

/-- Following a plan is how it turns out, if what it is followed with is what becomes of the
children. -/
theorem follows_follow (hR : ∀ n ∈ ns, R n (g n)) (plan : Plan) :
    Follows R ns plan (plan.follow (ns.map g)) := by
  induction plan with
  | leaf result => exact .leaf result
  | only build =>
    by_cases hlength : ns.length = 1
    · obtain ⟨n, rfl⟩ := List.length_eq_one_iff.1 hlength
      exact .only (hR n List.mem_cons_self)
    · rw [Plan.follow, Plan.onlyOf_of_length_ne (by rwa [List.length_map]), List.length_map]
      exact .notOne hlength
  | child place next ih =>
    rw [Plan.follow, List.getElem?_map]
    cases hplace : ns[place]? with
    | none => exact .noChild hplace (ih none)
    | some n =>
      have hn := hR n (List.mem_of_getElem? hplace)
      rw [Option.map_some]
      cases hg : g n with
      | error f => exact .childFault hplace (hg ▸ hn)
      | ok x => exact .child hplace (hg ▸ hn) (ih (some x))
  | _ build =>
    rw [Plan.follow, List.mapM_map]
    show Follows R ns (.over build) ((ns.mapM g).map build)
    cases hns : ns.mapM g with
    | ok xs => exact .all (answers_of_mapM hns hR)
    | error f =>
      obtain ⟨before, n, after, rfl, hbefore, hf⟩ := mapM_eq_error_iff.1 hns
      have hn := hR n (List.mem_append_right _ List.mem_cons_self)
      cases hxs : before.mapM g with
      | ok xs =>
        have hwell := answers_of_mapM hxs fun m hm => hR m (List.mem_append_left _ hm)
        exact .allFault hwell (hf ▸ hn)
      | error f' =>
        -- there is no fault before the first one
        obtain ⟨front, m, back, rfl, -, hm⟩ := mapM_eq_error_iff.1 hxs
        obtain ⟨x, hx⟩ := hbefore m (List.mem_append_right _ List.mem_cons_self)
        rw [hm] at hx
        cases hx

/-- **An element is converted exactly by those who answer for it**: the first handler that knows it,
and likewise for the children that this handler asks for. -/
theorem convert_eq_iff_answered {linked : Bool} {hs : List Handler} {n : Node}
    {r : Except Fault Expr} :
    (⟨hs, linked⟩ : Converter).convert n = r ↔ Answered linked hs n r := by
  induction n using Node.inductionOn generalizing r with
  | step n ih =>
  constructor
  · rintro rfl
    rw [convert_eq_follow]
    cases hplan : (⟨hs, linked⟩ : Converter).plan? n with
    | none => exact .unhandled (List.findSome?_eq_none_iff.1 hplan)
    | some plan =>
      obtain ⟨before, h, after, hsplit, hknown, hdeclined⟩ := List.findSome?_eq_some_iff.1 hplan
      exact .handled hsplit hdeclined hknown (follows_follow (fun m hm => (ih m hm).1 rfl) plan)
  · intro hanswered
    rw [convert_eq_follow]
    cases hanswered with
    | unhandled hdeclined =>
      have hplan : (⟨hs, linked⟩ : Converter).plan? n = none :=
        List.findSome?_eq_none_iff.2 hdeclined
      rw [hplan]
    | handled hsplit hdeclined hknown hfollows =>
      have hplan : (⟨hs, linked⟩ : Converter).plan? n = some _ :=
        List.findSome?_eq_some_iff.2 ⟨_, _, _, hsplit, hknown, hdeclined⟩
      rw [hplan]
      exact hfollows.follow_eq fun m hm r hr => (ih m hm).2 hr

/-! ## The extended converter -/

/-- **Appending handlers extends a converter conservatively.** What is converted is converted to the
same expression, and a fault is the same fault, unless it is that no handler knows an element. All
along, an element and the children that are asked for are answered by the first handler that knows
them. -/
theorem convert_append (linked : Bool) (hs extra : List Handler) (n : Node) :
    (∀ x, (⟨hs, linked⟩ : Converter).convert n = .ok x →
        (⟨hs ++ extra, linked⟩ : Converter).convert n = .ok x) ∧
      (∀ f, (∀ name, f ≠ .missingExpression (.unhandled name)) →
        (⟨hs, linked⟩ : Converter).convert n = .error f →
          (⟨hs ++ extra, linked⟩ : Converter).convert n = .error f) ∧
      ∀ r, (⟨hs, linked⟩ : Converter).convert n = r ↔ Answered linked hs n r := by
  have hkept := convert_kept linked hs extra n
  refine ⟨fun x hx => ?ok, fun f hf hfault => ?fault, fun r => convert_eq_iff_answered⟩
  case ok =>
    rw [hx] at hkept
    generalize (⟨hs ++ extra, linked⟩ : Converter).convert n = r at hkept ⊢
    cases hkept with
    | same => rfl
  case fault =>
    rw [hfault] at hkept
    generalize (⟨hs ++ extra, linked⟩ : Converter).convert n = r at hkept ⊢
    cases hkept with
    | same => rfl
    | unhandled name => exact absurd rfl (hf name)

/-- Takes an element for its second child, which has to be there. -/
def secondChild : Handler where
  plan? _ n :=
    if n.name = "second" then
      some (.child 1 fun e? =>
        .leaf (e?.elim (.error (.missingExpression (.stated "no second child"))) .ok))
    else none

/-- Groups are known only to the handler that is added. What asks for no group is converted as
before, and a second child that is missing is still missing. -/
theorem convert_append_group :
    let c : Converter := ⟨[Hosted.shadow, secondChild, Standard.handler], false⟩
    let c' : Converter := ⟨[Hosted.shadow, secondChild, Standard.handler] ++ [Hosted.group], false⟩
    let group : Node := .mk "all" [] [] none
    let known : Node := .mk "second" [] [group, .mk "and" [] [group] none] none
    let faulty : Node := .mk "or" [] [.mk "second" [] [group] none, group] none
    (c.convert known = .ok (.constant false) ∧ c'.convert known = .ok (.constant false)) ∧
      (c.convert faulty = .error (.missingExpression (.stated "no second child")) ∧
        c'.convert faulty = .error (.missingExpression (.stated "no second child"))) ∧
      c.convert group = .error (.missingExpression (.unhandled "all")) ∧
      c'.convert group = .ok (.group .and []) := by
  intro c c' group known faulty
  obtain ⟨hknown, -, -⟩ := convert_append false c.handlers [Hosted.group] known
  obtain ⟨-, hfaulty, -⟩ := convert_append false c.handlers [Hosted.group] faulty
  exact ⟨⟨rfl, hknown _ rfl⟩, ⟨rfl, hfaulty _ nofun rfl⟩, rfl, rfl⟩

end Enablement.Converter
