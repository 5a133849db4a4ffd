import Enablement.Expr.Digest
import Enablement.Proofs.Expr.Equality
import Enablement.Proofs.Value.Order
import Mathlib.Data.List.Forall2
/-!
# Equality — an equivalence that hash codes respect

Two expressions are equal when they are of one kind, are configured alike and have equal children
(`Expr.same_iff`). Configurations are alike up to the equality of values, up to whether references
are linked and up to the labels of fixed outcomes. Equality is an equivalence for it, and what is
alike is hashed alike whatever the hasher does.
-/

namespace Enablement

namespace Value

variable {vs ws us : List Value}

theorem sameItems_symm (h : sameItems vs ws = true) : sameItems ws vs = true :=
  BEq.symm (show (array vs == array ws) = true from h)

theorem sameItems_trans (h : sameItems vs ws = true) (h' : sameItems ws us = true) :
    sameItems vs us = true :=
  BEq.trans (show (array vs == array ws) = true from h) (show (array ws == array us) = true from h')

instance : EquivBEq (Option Value) where
  rfl {v} := by
    cases v with
    | none => rfl
    | some v => exact beq_self_eq_true v
  symm {v w} h := by
    cases v with
    | none =>
      cases w with
      | none => rfl
      | some w => cases h
    | some v =>
      cases w with
      | none => cases h
      | some w => exact (BEq.symm (a := v) (b := w) h : (w == v) = true)
  trans {u v w} h h' := by
    cases v with
    | none =>
      cases u with
      | none => exact h'
      | some u => cases h
    | some v =>
      cases u with
      | none => cases h
      | some u =>
        cases w with
        | none => cases h'
        | some w =>
          exact (BEq.trans (a := u) (b := v) (c := w) h h' : (u == w) = true)

end Value

namespace PropertyTest

variable {t u w : PropertyTest}

/-- Questions are the same when all their parts are. -/
theorem same_iff : t.same u = true ↔ t.namespaceName = u.namespaceName ∧ t.property = u.property ∧
    t.force = u.force ∧ (t.expected == u.expected) = true ∧
    Value.sameItems t.args u.args = true := by
  have hsame : t.same u = (t.namespaceName == u.namespaceName && t.property == u.property
      && t.force == u.force && (t.expected == u.expected) && Value.sameItems t.args u.args) := by
    rw [same]
    cases t.expected <;> cases u.expected <;> rfl
  rw [hsame]
  simp only [Bool.and_eq_true, beq_iff_eq, and_assoc]

theorem same_symm (h : t.same u = true) : u.same t = true := by
  obtain ⟨hnamespace, hproperty, hforce, hexpected, hargs⟩ := same_iff.1 h
  exact same_iff.2 ⟨hnamespace.symm, hproperty.symm, hforce.symm, BEq.symm hexpected,
    Value.sameItems_symm hargs⟩

theorem same_trans (h : t.same u = true) (h' : u.same w = true) : t.same w = true := by
  obtain ⟨hnamespace, hproperty, hforce, hexpected, hargs⟩ := same_iff.1 h
  obtain ⟨hnamespace', hproperty', hforce', hexpected', hargs'⟩ := same_iff.1 h'
  exact same_iff.2 ⟨hnamespace.trans hnamespace', hproperty.trans hproperty',
    hforce.trans hforce', BEq.trans hexpected hexpected', Value.sameItems_trans hargs hargs'⟩

end PropertyTest

namespace Expr

variable {a b c : Expr} {as bs cs : List Expr}

/-- Two expressions of one kind that are configured alike, whatever they are over. -/
inductive Matches : Expr → Expr → Prop
  | and (cs ds : List Expr) : Matches (.and cs) (.and ds)
  | or (cs ds : List Expr) : Matches (.or cs) (.or ds)
  | not (c d : Expr) : Matches (.not c) (.not d)
  | enablement (cs ds : List Expr) : Matches (.enablement cs) (.enablement ds)
  | withVariable (name : String) (cs ds : List Expr) :
      Matches (.withVariable name cs) (.withVariable name ds)
  | resolve (name : String) {vs ws : List Value} (h : Value.sameItems vs ws = true)
      (cs ds : List Expr) : Matches (.resolve name vs cs) (.resolve name ws ds)
  | adapt (target : String) (cs ds : List Expr) : Matches (.adapt target cs) (.adapt target ds)
  | iterate (connective : Connective) (ifEmpty : Option Bool) (cs ds : List Expr) :
      Matches (.iterate connective ifEmpty cs) (.iterate connective ifEmpty ds)
  | count (mode : CountMode) : Matches (.count mode) (.count mode)
  | equals {v w : Value} (h : (v == w) = true) : Matches (.equals v) (.equals w)
  | systemTest (property value : String) :
      Matches (.systemTest property value) (.systemTest property value)
  | test {t u : PropertyTest} (h : t.same u = true) : Matches (.test t) (.test u)
  | reference (id : String) (linked linked' : Bool) :
      Matches (.reference id linked) (.reference id linked')
  | instanceOf (typeName : String) : Matches (.instanceOf typeName) (.instanceOf typeName)
  | constant (value : Bool) : Matches (.constant value) (.constant value)
  | fixed (label label' : Option String) (outcome : String) :
      Matches (.fixed label outcome) (.fixed label' outcome)
  | group (connective : Connective) (cs ds : List Expr) :
      Matches (.group connective cs) (.group connective ds)

theorem Matches.symm (h : Matches a b) : Matches b a := by
  cases h with
  | resolve name h cs ds => exact .resolve name (Value.sameItems_symm h) ds cs
  | equals h => exact .equals (BEq.symm h)
  | test h => exact .test (PropertyTest.same_symm h)
  | _ => constructor

theorem Matches.trans (h : Matches a b) (h' : Matches b c) : Matches a c := by
  cases h with
  | resolve name h cs ds =>
    cases h' with
    | resolve _ h' _ es => exact .resolve name (Value.sameItems_trans h h') cs es
  | equals h =>
    cases h' with
    | equals h' => exact .equals (BEq.trans h h')
  | test h =>
    cases h' with
    | test h' => exact .test (PropertyTest.same_trans h h')
  | _ =>
    cases h'
    constructor

/-- **Equality goes by the nodes**: they match, and their children are equal in order. -/
theorem same_iff : same a b = true ↔ Matches a b ∧ sameAll a.children b.children = true := by
  constructor
  · intro h
    cases a <;> cases b <;> try cases h
    case and.and cs ds => exact ⟨.and cs ds, h⟩
    case or.or cs ds => exact ⟨.or cs ds, h⟩
    case not.not c d => exact ⟨.not c d, Bool.and_eq_true_iff.2 ⟨h, rfl⟩⟩
    case enablement.enablement cs ds => exact ⟨.enablement cs ds, h⟩
    case withVariable.withVariable name cs name' ds =>
      obtain ⟨hname, hall⟩ := Bool.and_eq_true_iff.1 h
      obtain rfl := beq_iff_eq.1 hname
      exact ⟨.withVariable name cs ds, hall⟩
    case resolve.resolve name vs cs name' ws ds =>
      obtain ⟨hhead, hall⟩ := Bool.and_eq_true_iff.1 h
      obtain ⟨hname, hargs⟩ := Bool.and_eq_true_iff.1 hhead
      obtain rfl := beq_iff_eq.1 hname
      exact ⟨.resolve name hargs cs ds, hall⟩
    case adapt.adapt target cs target' ds =>
      obtain ⟨htarget, hall⟩ := Bool.and_eq_true_iff.1 h
      obtain rfl := beq_iff_eq.1 htarget
      exact ⟨.adapt target cs ds, hall⟩
    case iterate.iterate connective ifEmpty cs connective' ifEmpty' ds =>
      obtain ⟨hhead, hall⟩ := Bool.and_eq_true_iff.1 h
      obtain ⟨hconnective, hempty⟩ := Bool.and_eq_true_iff.1 hhead
      obtain rfl := beq_iff_eq.1 hconnective
      obtain rfl := beq_iff_eq.1 hempty
      exact ⟨.iterate connective ifEmpty cs ds, hall⟩
    case count.count mode mode' =>
      obtain rfl : mode = mode' := beq_iff_eq.1 h
      exact ⟨.count mode, rfl⟩
    case equals.equals v w => exact ⟨.equals h, rfl⟩
    case systemTest.systemTest property value property' value' =>
      obtain ⟨hproperty, hvalue⟩ := Bool.and_eq_true_iff.1 h
      obtain rfl := beq_iff_eq.1 hproperty
      obtain rfl := beq_iff_eq.1 hvalue
      exact ⟨.systemTest property value, rfl⟩
    case test.test t u => exact ⟨.test h, rfl⟩
    case reference.reference id linked id' linked' =>
      obtain rfl : id = id' := beq_iff_eq.1 h
      exact ⟨.reference id linked linked', rfl⟩
    case instanceOf.instanceOf typeName typeName' =>
      obtain rfl : typeName = typeName' := beq_iff_eq.1 h
      exact ⟨.instanceOf typeName, rfl⟩
    case constant.constant value value' =>
      obtain rfl : value = value' := beq_iff_eq.1 h
      exact ⟨.constant value, rfl⟩
    case fixed.fixed label outcome label' outcome' =>
      obtain rfl : outcome = outcome' := beq_iff_eq.1 h
      exact ⟨.fixed label label' outcome, rfl⟩
    case group.group connective cs connective' ds =>
      obtain ⟨hconnective, hall⟩ := Bool.and_eq_true_iff.1 h
      obtain rfl := beq_iff_eq.1 hconnective
      exact ⟨.group connective cs ds, hall⟩
  · rintro ⟨hmatches, hall⟩
    cases hmatches with
    | and cs ds | or cs ds | enablement cs ds => exact hall
    | not c d => exact (Bool.and_eq_true_iff.1 hall).1
    | withVariable name cs ds => exact Bool.and_eq_true_iff.2 ⟨beq_self_eq_true name, hall⟩
    | resolve name h cs ds =>
      exact Bool.and_eq_true_iff.2 ⟨Bool.and_eq_true_iff.2 ⟨beq_self_eq_true name, h⟩, hall⟩
    | adapt target cs ds => exact Bool.and_eq_true_iff.2 ⟨beq_self_eq_true target, hall⟩
    | iterate connective ifEmpty cs ds =>
      exact Bool.and_eq_true_iff.2 ⟨Bool.and_eq_true_iff.2
        ⟨beq_self_eq_true connective, beq_self_eq_true ifEmpty⟩, hall⟩
    | count mode => exact beq_self_eq_true mode
    | equals h => exact h
    | systemTest property value =>
      exact Bool.and_eq_true_iff.2 ⟨beq_self_eq_true property, beq_self_eq_true value⟩
    | test h => exact h
    | reference id linked linked' => exact beq_self_eq_true id
    | instanceOf typeName => exact beq_self_eq_true typeName
    | constant value => exact beq_self_eq_true value
    | fixed label label' outcome => exact beq_self_eq_true outcome
    | group connective cs ds => exact Bool.and_eq_true_iff.2 ⟨beq_self_eq_true connective, hall⟩

/-- Lists of expressions are equal place by place. -/
theorem sameAll_iff : sameAll as bs = true ↔ List.Forall₂ (fun a b => same a b = true) as bs := by
  induction as generalizing bs with
  | nil => cases bs <;> simp [sameAll, List.forall₂_nil_left_iff]
  | cons a as ih => cases bs <;> simp [sameAll, ih, List.forall₂_nil_right_iff]

/-- What follows for each of the expressions that are equal to these. -/
theorem forall₂_of_sameAll {R : Expr → Expr → Prop} (h : ∀ a ∈ as, ∀ b, same a b = true → R a b)
    (hall : sameAll as bs = true) : List.Forall₂ R as bs := by
  have hmem := (List.forall₂_and_left as bs).2 ⟨fun a ha => ha, sameAll_iff.1 hall⟩
  exact hmem.imp fun a b hab => h a hab.1 b hab.2

/-! ## The laws of equality -/

/-- **Equality is symmetric.** -/
theorem same_symm (h : same a b = true) : same b a = true := by
  induction a using inductionOn generalizing b with
  | step a ih =>
  obtain ⟨hmatches, hall⟩ := same_iff.1 h
  exact same_iff.2 ⟨hmatches.symm,
    sameAll_iff.2 (forall₂_of_sameAll (fun x hx _ => ih x hx) hall).flip⟩

theorem sameAll_trans
    (h : ∀ a ∈ as, ∀ b c, same a b = true → same b c = true → same a c = true)
    (hab : sameAll as bs = true) (hbc : sameAll bs cs = true) : sameAll as cs = true := by
  induction as generalizing bs cs with
  | nil =>
    cases bs with
    | nil => exact hbc
    | cons b bs => cases hab
  | cons a as ih =>
    cases bs with
    | nil => cases hab
    | cons b bs =>
      cases cs with
      | nil => cases hbc
      | cons c cs =>
        obtain ⟨hhead, htail⟩ := Bool.and_eq_true_iff.1 hab
        obtain ⟨hhead', htail'⟩ := Bool.and_eq_true_iff.1 hbc
        exact Bool.and_eq_true_iff.2 ⟨h a List.mem_cons_self b c hhead hhead',
          ih (fun x hx => h x (List.mem_cons_of_mem a hx)) htail htail'⟩

/-- **Equality is transitive.** -/
theorem same_trans (hab : same a b = true) (hbc : same b c = true) : same a c = true := by
  induction a using inductionOn generalizing b c with
  | step a ih =>
  obtain ⟨hmatches, hall⟩ := same_iff.1 hab
  obtain ⟨hmatches', hall'⟩ := same_iff.1 hbc
  exact same_iff.2 ⟨hmatches.trans hmatches', sameAll_trans (fun x hx _ _ => ih x hx) hall hall'⟩

instance : EquivBEq Expr where
  symm := same_symm
  trans := same_trans

/-! ## Hash codes -/

variable {h : Hasher} {codes : List UInt32}

theorem codeOfValues_congr {vs ws : List Value} (hsame : Value.sameItems vs ws = true) :
    codeOfValues h vs = codeOfValues h ws := by
  have hfold (start : UInt32) : vs.foldl (fun code v => code * hashFactor + h v.feed) start =
      ws.foldl (fun code v => code * hashFactor + h v.feed) start := by
    have hitems := Value.sameItems_iff.1 hsame
    clear hsame
    induction hitems generalizing start with
    | nil => rfl
    | cons hvw _ ih => rw [List.foldl_cons, List.foldl_cons, Value.feed_congr hvw, ih]
  exact hfold _

theorem feedOption_congr {v w : Option Value} (hsame : (v == w) = true) :
    feedOption v = feedOption w := by
  cases v <;> cases w
  · rfl
  · cases hsame
  · cases hsame
  · exact congrArg (Atom.tag 1 :: ·) (Value.feed_congr hsame)

/-- What is configured alike mixes the codes of its children alike. -/
theorem Matches.mixCodes_eq (hmatches : Matches a b) : a.mixCodes h codes = b.mixCodes h codes := by
  cases hmatches with
  | resolve name hargs cs ds => rw [mixCodes, mixCodes, codeOfValues_congr hargs]
  | equals hvalue => rw [mixCodes, mixCodes, Value.feed_congr hvalue]
  | test ht =>
    obtain ⟨hnamespace, hproperty, hforce, hexpected, hargs⟩ := PropertyTest.same_iff.1 ht
    rw [mixCodes, mixCodes, hnamespace, hproperty, hforce, feedOption_congr hexpected,
      codeOfValues_congr hargs]
  | _ => rfl

theorem Matches.codeOver_eq (hmatches : Matches a b) : a.codeOver h codes = b.codeOver h codes := by
  have hcell : a.hasCell = b.hasCell := by cases hmatches <;> rfl
  rw [codeOver, codeOver, hcell, hmatches.mixCodes_eq]

/-- **Equal expressions have equal hash codes**, whatever the hasher does. -/
theorem code_congr (hsame : same a b = true) : a.code h = b.code h := by
  induction a using inductionOn generalizing b with
  | step a ih =>
  obtain ⟨hmatches, hall⟩ := same_iff.1 hsame
  have hcodes : a.children.map (code h) = b.children.map (code h) := by
    rw [← List.forall₂_eq_eq_eq, List.forall₂_map_left_iff, List.forall₂_map_right_iff]
    exact forall₂_of_sameAll (fun x hx _ => ih x hx) hall
  rw [code_eq_codeOver, code_eq_codeOver, hcodes, hmatches.codeOver_eq]

end Expr

end Enablement
