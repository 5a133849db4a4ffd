import Enablement.Proofs.Conversion.Readings
/-!
# The standard language is converted as its grammar says

The plan for an element is compared with the grammar once, name by name (`planned`, `Heads.plans`).
The conversion of trees follows from the plans by induction on the children.
-/

namespace Enablement

namespace Standard

/-! ## Plans -/

variable {linked : Bool} {n : Node} {name : String} {ds : List Demand}
variable {α : Type} {P : α → Prop} {r : Except Fault α}

/-- What the plan for an element says about it. -/
inductive Planned (linked : Bool) (n : Node) : Option Plan → Prop
  | unknown (hdemands : demands? n.name = none) : Planned linked n none
  | faulty {f : Fault} (hown : ownFault? n = some f) : Planned linked n (some (.leaf (.error f)))
  | leaf {x : Expr} (hown : ownFault? n = none) (hname : n.name ∉ branching)
    (head : Heads linked n x) (hx : x.children = []) : Planned linked n (some (.leaf (.ok x)))
  | many {build : List Expr → Expr} (hown : ownFault? n = none) (hname : n.name ∈ branching)
    (head : ∀ xs, Heads linked n (build xs)) (hbuild : ∀ xs, (build xs).children = xs) :
    Planned linked n (some (.over build))
  | only (hname : n.name = "not") : Planned linked n (some (.only .not))

/-- A leaf is planned that an element is read as. -/
theorem planned_leaf {g : α → Expr} (hname : n.name = name) (hbranching : name ∉ branching)
    (hdemands : demands? name = some ds) (hr : Reads n ds P r)
    (head : ∀ a, P a → Heads linked n (g a)) (hg : ∀ a, (g a).children = []) :
    Planned linked n (some (.leaf (r.map g))) := by
  subst hname
  cases hr with
  | @ok a met only =>
    exact .leaf ((ownFault?_eq hdemands).trans met) hbranching (head a ((only a).2 rfl)) (hg a)
  | error first nothing => exact .faulty ((ownFault?_eq hdemands).trans first)

/-- An expression over the children is planned that an element is read as. -/
theorem planned_over {g : α → List Expr → Expr} (hname : n.name = name)
    (hbranching : name ∈ branching) (hdemands : demands? name = some ds) (hr : Reads n ds P r)
    (head : ∀ a, P a → ∀ xs, Heads linked n (g a xs)) (hg : ∀ a xs, (g a xs).children = xs) :
    Planned linked n (some (.overWith r g)) := by
  subst hname
  cases hr with
  | @ok a met only =>
    exact .many ((ownFault?_eq hdemands).trans met) hbranching (head a ((only a).2 rfl)) (hg a)
  | error first nothing => exact .faulty ((ownFault?_eq hdemands).trans first)

/-- **The plan for an element is as the grammar describes it.** -/
theorem planned (linked : Bool) (n : Node) : Planned linked n (plan? linked n) := by
  rw [plan?]
  -- name by name, in the order of the table
  split
  · next h =>
    exact planned_over (g := fun _ => .and) h (by decide) rfl (.pure ())
      (fun _ _ xs => .and xs h) fun _ _ => rfl
  · next h =>
    exact planned_over (g := fun _ => .or) h (by decide) rfl (.pure ())
      (fun _ _ xs => .or xs h) fun _ _ => rfl
  · next h => exact .only h
  · next h =>
    exact planned_over (g := fun _ => .enablement) h (by decide) rfl (.pure ())
      (fun _ _ xs => .enablement xs h) fun _ _ => rfl
  · next h =>
    exact planned_over h (by decide) rfl (reads_require n "variable")
      (fun _ hvariable xs => .withVariable xs h hvariable) fun _ _ => rfl
  · next h =>
    exact planned_over h (by decide) rfl (reads_resolve n)
      (fun _ ⟨hvariable, hargs⟩ xs => .resolve xs h hvariable hargs) fun _ _ => rfl
  · next h =>
    exact planned_over h (by decide) rfl (reads_require n "type")
      (fun _ htype xs => .adapt xs h htype) fun _ _ => rfl
  · next h =>
    refine planned_over h (by decide) rfl (reads_iterate n) ?_ fun _ _ => rfl
    rintro ⟨connective, _⟩ ⟨hoperator, rfl⟩ xs
    exact .iterate xs h hoperator
  · next h =>
    exact planned_leaf (g := fun _ => .count (.ofString ((n.attribute? "value").getD "*"))) h
      (by decide) rfl (.pure ()) (fun _ _ => .count h) fun _ => rfl
  · next h =>
    exact planned_leaf h (by decide) rfl (reads_equals n)
      (fun _ ⟨_, htext, hvalue⟩ => .equals h htext hvalue) fun _ => rfl
  · next h =>
    exact planned_leaf h (by decide) rfl (reads_systemTest n)
      (fun _ ⟨hproperty, hvalue⟩ => .systemTest h hproperty hvalue) fun _ => rfl
  · next h =>
    refine planned_leaf h (by decide) rfl (reads_test n) ?_ fun _ => rfl
    rintro ⟨namespaceName, property, args, expected, _⟩
      ⟨hqualified, hproperty, hargs, hexpected, rfl⟩
    exact .test h hqualified hproperty hargs hexpected
  · next h =>
    exact planned_leaf h (by decide) rfl (reads_require n "definitionId")
      (fun _ hid => .reference h hid) fun _ => rfl
  · next h =>
    exact planned_leaf h (by decide) rfl (reads_require n "value")
      (fun _ hvalue => .instanceOf h hvalue) fun _ => rfl
  · refine .unknown ?_
    rw [demands?] <;> assumption

/-- What an element says is planned for it. -/
inductive Heads.Plans (linked : Bool) (n : Node) (x : Expr) : Prop
  | leaf (hplan : plan? linked n = some (.leaf (.ok x)))
  | many {name : String} {build : List Expr → Expr} (hname : n.name = name)
    (hbranching : name ∈ branching) (hplan : plan? linked n = some (.over build))
    (hbuild : build x.children = x)
  | only {c : Expr} (hname : n.name = "not") (hplan : plan? linked n = some (.only .not))
    (hx : x = .not c)

theorem Heads.plans {x : Expr} (h : Heads linked n x) : Heads.Plans linked n x := by
  cases h with
  | and xs hname => exact .many hname (by decide) (by rw [plan?, hname]; rfl) rfl
  | or xs hname => exact .many hname (by decide) (by rw [plan?, hname]; rfl) rfl
  | not x hname => exact .only hname (by rw [plan?, hname]; rfl) rfl
  | enablement xs hname => exact .many hname (by decide) (by rw [plan?, hname]; rfl) rfl
  | withVariable xs hname hvariable =>
    refine .many hname (by decide) ?_ rfl
    rw [plan?, hname, (reads_require n "variable").eq_ok hvariable]
    rfl
  | resolve xs hname hvariable hargs =>
    refine .many hname (by decide) ?_ rfl
    rw [plan?, hname, (reads_resolve n).eq_ok (a := (_, _)) ⟨hvariable, hargs⟩]
    rfl
  | adapt xs hname htype =>
    refine .many hname (by decide) ?_ rfl
    rw [plan?, hname, (reads_require n "type").eq_ok htype]
    rfl
  | iterate xs hname hoperator =>
    refine .many hname (by decide) ?_ rfl
    rw [plan?, hname, (reads_iterate n).eq_ok (a := (_, _)) ⟨hoperator, rfl⟩]
    rfl
  | count hname => exact .leaf (by rw [plan?, hname]; rfl)
  | equals hname htext hvalue =>
    refine .leaf ?_
    rw [plan?, hname, (reads_equals n).eq_ok ⟨_, htext, hvalue⟩]
    rfl
  | systemTest hname hproperty hvalue =>
    refine .leaf ?_
    rw [plan?, hname, (reads_systemTest n).eq_ok (a := (_, _)) ⟨hproperty, hvalue⟩]
    rfl
  | @test namespaceName property args expected hname hqualified hproperty hargs hexpected =>
    refine .leaf ?_
    let t : PropertyTest :=
      { namespaceName, property, args, expected, force := n.isTrue "forcePluginActivation" }
    have hread : readTest n = .ok t :=
      (reads_test n).eq_ok ⟨hqualified, hproperty, hargs, hexpected, rfl⟩
    rw [plan?, hname, hread]
    rfl
  | reference hname hid =>
    refine .leaf ?_
    rw [plan?, hname, (reads_require n "definitionId").eq_ok hid]
    rfl
  | instanceOf hname hvalue =>
    refine .leaf ?_
    rw [plan?, hname, (reads_require n "value").eq_ok hvalue]
    rfl

/-! ## Conversion -/

/-- A conversion ends with an expression that mirrors the element, and then nothing that is reached
has a fault, or else with the first fault. -/
inductive Converted (linked : Bool) (n : Node) : Except Fault Expr → Prop
  | ok {x : Expr} (faultless : (reached n).findSome? ownFault? = none)
    (mirrors : Mirrors linked n x) : Converted linked n (.ok x)
  | error {f : Fault} (first : (reached n).findSome? ownFault? = some f) :
    Converted linked n (.error f)

/-- The same for the elements of a list. -/
inductive ConvertedAll (linked : Bool) (ns : List Node) : Except Fault (List Expr) → Prop
  | ok {xs : List Expr} (faultless : (ns.flatMap reached).findSome? ownFault? = none)
    (mirrors : List.Forall₂ (Mirrors linked) ns xs) : ConvertedAll linked ns (.ok xs)
  | error {f : Fault} (first : (ns.flatMap reached).findSome? ownFault? = some f) :
    ConvertedAll linked ns (.error f)

theorem convertedAll {c : Converter} {ns : List Node}
    (h : ∀ n ∈ ns, Converted linked n (c.convert n)) :
    ConvertedAll linked ns (c.convertAll ns) := by
  induction ns with
  | nil => rw [Converter.convertAll_nil]; exact .ok rfl .nil
  | cons n ns ih =>
    have hn := h n List.mem_cons_self
    have hns := ih fun m hm => h m (List.mem_cons_of_mem n hm)
    have happend : ((n :: ns).flatMap reached).findSome? ownFault? =
        ((reached n).findSome? ownFault?).or ((ns.flatMap reached).findSome? ownFault?) := by
      rw [List.flatMap_cons, List.findSome?_append]
    rw [Converter.convertAll_cons]
    generalize c.convert n = r at hn ⊢
    generalize c.convertAll ns = rs at hns ⊢
    cases hn with
    | error first => exact .error (by rw [happend, first]; rfl)
    | ok faultless mirrors =>
      rw [faultless, Option.none_or] at happend
      cases hns with
      | error first' => exact .error (happend.trans first')
      | ok faultless' mirrors' => exact .ok (happend.trans faultless') (.cons mirrors mirrors')

/-- An expression over the children mirrors the element if the children are mirrored. -/
theorem converted_over {g : List Expr → Expr} {r : Except Fault (List Expr)}
    (hown : ownFault? n = none) (hname : n.name ∈ branching) (head : ∀ xs, Heads linked n (g xs))
    (hg : ∀ xs, (g xs).children = xs) (hall : ConvertedAll linked n.children r) :
    Converted linked n (r.map g) := by
  have hreached : (reached n).findSome? ownFault? =
      (n.children.flatMap reached).findSome? ownFault? := by
    rw [findSome?_reached, hown, lookedAt, if_pos hname, Option.none_or]
  cases hall with
  | error first => exact .error (hreached.trans first)
  | @ok xs faultless mirrors =>
    refine .ok (hreached.trans faultless) ⟨head xs, ?_⟩
    rw [lookedAt, if_pos hname, hg]
    exact mirrors

/-- A negation is converted if it has one child and this is. -/
theorem converted_only {c : Converter} (hname : n.name = "not")
    (hchildren : ∀ m ∈ n.children, Converted linked m (c.convert m)) :
    Converted linked n ((c.convertOnly n.children).map .not) := by
  have hlooked : lookedAt n = n.children := if_pos (hname ▸ by decide)
  have hown : ownFault? n = Demand.onlyChild.fault? n := by
    rw [ownFault?_eq (hname ▸ rfl : demands? n.name = some [.onlyChild]),
      List.findSome?_singleton]
  by_cases hlength : n.children.length = 1
  · obtain ⟨m, hm⟩ := List.length_eq_one_iff.1 hlength
    have hreached : (reached n).findSome? ownFault? = (reached m).findSome? ownFault? := by
      rw [findSome?_reached, hown, Demand.fault?, if_pos hlength, hlooked, hm,
        List.flatMap_singleton]
      rfl
    have hchild := hchildren m (hm ▸ List.mem_singleton_self m)
    rw [hm, Converter.convertOnly_singleton]
    generalize c.convert m = r at hchild ⊢
    cases hchild with
    | error first => exact .error (hreached.trans first)
    | @ok x faultless mirrors =>
      refine .ok (hreached.trans faultless) ⟨.not x hname, ?_⟩
      rw [hlooked, hm]
      exact .cons mirrors .nil
  · rw [Converter.convertOnly_of_length_ne hlength]
    refine .error ?_
    rw [findSome?_reached, hown, Demand.fault?, if_neg hlength]
    rfl

/-- The plans of the converter are those of the language. -/
theorem converter_plan? (linked : Bool) (n : Node) :
    ({ converter with linked } : Converter).plan? n = plan? linked n := by
  rw [Converter.plan?, converter, List.findSome?_singleton, handler]

/-- The standard language is converted as its grammar says. -/
theorem converted (linked : Bool) (n : Node) :
    Converted linked n (({ converter with linked } : Converter).convert n) := by
  -- by induction on the children, along the plan for the element
  induction n using Node.inductionOn with
  | step n ih =>
  rw [Converter.convert_eq, converter_plan?]
  have hplanned := planned linked n
  generalize plan? linked n = p at hplanned ⊢
  cases hplanned with
  | unknown hdemands =>
    refine .error ?_
    rw [findSome?_reached, ownFault?, hdemands]
    rfl
  | faulty hown => exact .error (by rw [findSome?_reached, hown]; rfl)
  | leaf hown hname head hx =>
    refine .ok ?_ ⟨head, ?_⟩
    · rw [findSome?_reached, hown, lookedAt, if_neg hname]
      rfl
    · rw [lookedAt, if_neg hname, hx]
      exact .nil
  | many hown hname head hbuild => exact converted_over hown hname head hbuild (convertedAll ih)
  | only hname => exact converted_only hname ih

/-- What mirrors an element is what the element is converted to. -/
theorem Mirrors.convert_eq {x : Expr} (h : Mirrors linked n x) :
    ({ converter with linked } : Converter).convert n = .ok x := by
  induction n using Node.inductionOn generalizing x with
  | step n ih =>
  obtain ⟨head, below⟩ := h
  rw [Converter.convert_eq, converter_plan?]
  cases head.plans with
  | leaf hplan => rw [hplan]
  | many hname hbranching hplan hbuild =>
    rw [lookedAt, if_pos (hname ▸ hbranching)] at below
    have hchildren : ({ converter with linked } : Converter).convertAll n.children =
        .ok x.children :=
      Converter.convertAll_eq_ok_iff.2 <|
        ((List.forall₂_and_left _ _).2 ⟨fun m hm y => ih m hm (x := y), below⟩).imp
          fun m y h => h.1 y h.2
    rw [hplan]
    simp only [hchildren]
    exact congrArg Except.ok hbuild
  | only hname hplan hx =>
    rw [lookedAt, if_pos (hname ▸ by decide), hx, Expr.children] at below
    obtain ⟨m, ms, hm, hms, hchildren⟩ := List.forall₂_cons_right_iff.1 below
    obtain rfl := List.forall₂_nil_right_iff.1 hms
    rw [hplan, hx]
    simp only [hchildren, Converter.convertOnly_singleton]
    rw [ih m (hchildren ▸ List.mem_cons_self) hm]
    rfl

/-- **The standard language is converted exactly by its grammar.** An element is converted exactly
if all elements that are reached from it are well formed; it is converted exactly to what mirrors
it; and if it is not, the fault is the first one of the first element in document order that is not
well formed. -/
theorem convert_by_grammar (linked : Bool) (n : Node) :
    ((∃ x, ({ converter with linked } : Converter).convert n = .ok x) ↔
        ∀ m ∈ reached n, WellFormed m) ∧
      (∀ x, ({ converter with linked } : Converter).convert n = .ok x ↔ Mirrors linked n x) ∧
      ∀ f, ({ converter with linked } : Converter).convert n = .error f ↔
        (reached n).findSome? ownFault? = some f := by
  have hfaultless : (∀ m ∈ reached n, WellFormed m) ↔ (reached n).findSome? ownFault? = none := by
    simp only [wellFormed_iff, List.findSome?_eq_none_iff]
  rw [hfaultless]
  have hcomplete : ∀ x, Mirrors linked n x →
      ({ converter with linked } : Converter).convert n = .ok x := fun x h => h.convert_eq
  have hconverted := converted linked n
  generalize ({ converter with linked } : Converter).convert n = r at hcomplete hconverted ⊢
  cases hconverted with
  | @ok x faultless mirrors =>
    refine ⟨⟨fun _ => faultless, fun _ => ⟨x, rfl⟩⟩, fun y => ⟨?_, hcomplete y⟩, fun f => ?_⟩
    · rintro h
      cases h
      exact mirrors
    · rw [faultless]
      exact ⟨nofun, nofun⟩
  | @error g first =>
    refine ⟨?_, fun y => ⟨nofun, hcomplete y⟩, fun f => ?_⟩
    · rw [first]
      simp
    · rw [first, Except.error.injEq, Option.some.injEq]

/-- The child of a test is not looked at. The negation that has no child comes before the element
that nobody knows, and neither can the conjunction be converted. -/
theorem convert_by_grammar_conjunction :
    let test : Node := .mk "test" [("property", some "org.example.kind")]
      [.mk "unknown" [] [] none] none
    let n : Node := .mk "and" [] [test, .mk "not" [] [] none, .mk "unknown" [] [] none] none
    converter.convert n = .error (.missingExpression (.notOneChild 0)) ∧
      (∃ x, converter.convert test = .ok x) ∧ ¬ ∃ x, Mirrors false n x := by
  intro test n
  have hn := convert_by_grammar false n
  have htest := convert_by_grammar false test
  have hfault : converter.convert n = .error (.missingExpression (.notOneChild 0)) :=
    (hn.2.2 _).2 rfl
  refine ⟨hfault, htest.1.2 ?_, ?_⟩
  · intro m hm
    obtain rfl : m = test := by simpa [test, reached, branching] using hm
    exact wellFormed_iff.2 rfl
  · rintro ⟨x, hx⟩
    have hok : converter.convert n = .ok x := (hn.2.1 x).2 hx
    rw [hfault] at hok
    cases hok

end Standard

end Enablement
