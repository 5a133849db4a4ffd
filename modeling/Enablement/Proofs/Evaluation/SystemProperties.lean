import Enablement.Proofs.Access.Asks
import Enablement.Proofs.Evaluation.Blind
/-!
# Evaluation — when system properties matter

A question about a system property says so in the access record. A question to a tester does not,
although one that is put to the platform type is answered from the system properties, under the name
of the property and whatever its namespace. So an expression whose record tells of no system
property can still depend on those that it names as properties of testers, and on no others
(`evaluate_fst_eq_iff_sameProperties`).
-/

namespace Enablement

open Engine

/-! ## Properties that are named -/

/-- Two tables of system properties agree on those that are named, in whatever namespace. -/
def NameSet.AgreeOn (names : NameSet) (table table' : NameMap String) : Prop :=
  ∀ namespaceName property, names.contains (namespaceName ++ "." ++ property) = true →
    table.find? property = table'.find? property

namespace Engine

variable {e₀ e : Engine} {names : NameSet} {table properties : NameMap String}

/-! ## Engines on one host -/

/-- Lookups, definitions and events leave the system properties as they are. -/
theorem steady_properties (table : NameMap String) :
    Steady fun e => e.platform.properties = table where
  record _ _ _ he := he
  resolve receiver namespaceName property force e he := by
    obtain ⟨_, _, hs⟩ := resolve_shows receiver namespaceName property force e
    obtain ⟨n, hp⟩ := hs.platform
    rw [hp]
    exact he
  definition := definition_keeps fun _ _ _ he => he

/-- An engine with given system properties, where names are defined as in an earlier one. -/
def HostedWith (table : NameMap String) (e₀ e : Engine) : Prop :=
  e.platform.properties = table ∧ e₀.SameDefinitions e

theorem steady_hostedWith (table : NameMap String) (e₀ : Engine) : Steady (HostedWith table e₀) :=
  (steady_properties table).and (steady_sameDefinitions e₀)

/-- Other system properties change nothing about an expression whose record tells of none, if they
agree on those that the record names; nor about its references, if that is so for them. -/
theorem meaning_blind_of_looks (hagree : names.AgreeOn properties table) (link : String → Access)
    {refer : String → Meaning} {x : Expr} (hx : x.accountable = true)
    (hlooks : (x.looks link).AsksWithin { properties := names })
    (hrefer : ∀ id, (link id).AsksWithin { properties := names } →
      (refer id).Blind (HostedWith table e₀) (·.withProperties properties)) :
    (x.meaning refer).Blind (HostedWith table e₀) (·.withProperties properties) := by
  have hσ := aside_withProperties properties
  have hP := steady_hostedWith table e₀
  refine x.meaning_of_closed (Meaning.closed_blind hσ hP) (fun property value hs => ?_)
    (fun q hq => .test hσ hP fun e he => ?_) (fun id linked hid => ?_) fun label outcome _ =>
      .fixed hσ hP label outcome
  · exact nomatch hlooks.systemProperty (Expr.systemProperty_looks_of_systemTest hs)
  · show properties.find? q.property = e.platform.properties.find? q.property
    rw [he.1]
    exact hagree q.namespaceName q.property (hlooks.properties _ (Expr.contains_looks_of_test hq))
  · obtain rfl := Expr.linked_of_accountable hx hid
    exact hrefer id ((Expr.looks_asksWithin_of_mem_leaves link hid).trans hlooks)

/-- Nor about a reference, however deep definitions may be entered. -/
theorem linkWithin_blind (hacyclic : e₀.DefinitionsAcyclic)
    (haccountable : ∀ id x, e₀.defined id = .ok x → x.accountable = true)
    (hagree : names.AgreeOn properties table) (depth : ℕ) (id : String)
    (hlooks : (e₀.looksOf id).AsksWithin { properties := names }) :
    (linkWithin depth id).Blind (HostedWith table e₀) (·.withProperties properties) := by
  induction depth generalizing id with
  | zero => exact ⟨fun _ => .fail _, fun _ => .fail _⟩
  | succ depth ih =>
    refine ⟨linkWithin_keeps (steady_hostedWith table e₀) _ id, fun ctx => ?_⟩
    refine ((aside_withProperties properties).unseeing_definition id).blind.bind_of_results
      ((steady_hostedWith table e₀).definition id) fun e x he hend => ?_
    -- the definition stays what it is, and looks at what the reference does
    have hx := he.2.defined_of_definition hend
    rw [hacyclic.looksOf_eq hx] at hlooks
    exact (meaning_blind_of_looks hagree e₀.looksOf (haccountable id x hx) hlooks ih).same ctx

/-- **What an expression does not ask for does not matter.** Where the tables agree on what the
record names, evaluation ends the same way and leaves the same engine but for the table. -/
theorem evaluate_withProperties (hsame : e₀.SameDefinitions e)
    (hacyclic : e₀.DefinitionsAcyclic)
    (haccountable : ∀ id x, e₀.defined id = .ok x → x.accountable = true)
    (hagree : names.AgreeOn properties e.platform.properties) {x : Expr}
    (hx : x.accountable = true)
    (haccess : (access x e₀).1.AsksWithin { properties := names }) (ctx : Context) :
    evaluate x ctx (e.withProperties properties) =
      ((evaluate x ctx e).1, (evaluate x ctx e).2.withProperties properties) := by
  rw [access_fst] at haccess
  exact (meaning_blind_of_looks hagree e₀.looksOf hx haccess
    (linkWithin_blind hacyclic haccountable hagree _)).same ctx e ⟨rfl, hsame⟩

/-! ## What the record does not tell -/

/-- The question whether a property has a value, as one to a tester. -/
def valueTest (namespaceName property value : String) : PropertyTest :=
  { namespaceName, property, args := [.string value] }

/-- Put to the platform type it tells whether a system property has a value. -/
theorem evaluate_test_platform (namespaceName property value : String) (e : Engine) :
    (evaluate (.test (valueTest namespaceName property value))
        [.frame { defaultVariable := .type Platform.platformType }] e).1 =
      .ok (.ofBool (e.platform.property? property == some value)) := by
  have hmeaning : evaluate (.test (valueTest namespaceName property value))
      [.frame { defaultVariable := .type Platform.platformType }] e =
        Meaning.platformTest (valueTest namespaceName property value) e := rfl
  rw [hmeaning, Meaning.platformTest, Act.read_bind]
  dsimp only [valueTest]
  cases e.platform.property? property with
  | none => rfl
  | some actual => rfl

/-- Its record names the property, and nothing else. -/
theorem contains_access_test {q : PropertyTest} {n : String}
    (h : (access (.test q) e).1.properties.contains n = true) : n = q.qualified := by
  have hrecord : (access (.test q) e).1.properties = NameSet.empty.insert q.qualified := rfl
  rw [hrecord, NameSet.contains_insert, NameSet.contains_empty, Bool.or_false] at h
  exact beq_iff_eq.1 h

/-- **A record that tells of no system property still allows for some, and for no others.** On a
host with other system properties all expressions whose records tell of none, and name given
properties at most, end alike exactly if the system properties agree on those that are named. -/
theorem evaluate_fst_eq_iff_sameProperties (hsame : e₀.SameDefinitions e)
    (hacyclic : e₀.DefinitionsAcyclic)
    (haccountable : ∀ id x, e₀.defined id = .ok x → x.accountable = true) (names : NameSet)
    (properties : NameMap String) :
    (∀ x : Expr, x.accountable = true → (access x e₀).1.systemProperty = false →
      (∀ n, (access x e₀).1.properties.contains n = true → names.contains n = true) →
      ∀ ctx, (evaluate x ctx (e.withProperties properties)).1 = (evaluate x ctx e).1) ↔
    names.AgreeOn properties e.platform.properties := by
  constructor
  · intro h namespaceName property hname
    -- questions whether the property has a value tell which value it has
    refine Option.ext fun value => ?_
    have hnames : ∀ n,
        (access (.test (valueTest namespaceName property value)) e₀).1.properties.contains n =
          true → names.contains n = true := by
      intro n hn
      rw [contains_access_test hn]
      exact hname
    have hasked := h (.test (valueTest namespaceName property value)) rfl rfl hnames
      [.frame { defaultVariable := .type Platform.platformType }]
    rw [evaluate_test_platform, evaluate_test_platform, Except.ok.injEq] at hasked
    have hbeq : (properties.find? property == some value) =
        (e.platform.properties.find? property == some value) := Truth.ofBool_inj hasked
    simpa only [beq_iff_eq] using Bool.eq_iff_iff.1 hbeq
  · intro hagree x hx hsystem hnames ctx
    have haccess : (access x e₀).1.AsksWithin { properties := names } := by
      refine ⟨fun hs => ?_, hnames⟩
      rw [hsystem] at hs
      cases hs
    rw [evaluate_withProperties hsame hacyclic haccountable hagree hx haccess ctx]

/-- An engine on a host that names its system, where `d` asks for the name. -/
def linuxEngine : Engine :=
  { platform := { properties := .ofList [("os", "linux")] }
    definitions := { expressions := .ofList [("d", .test (valueTest "ns" "os" "linux"))] } }

/-- Another property of the host does not matter to the definition. -/
theorem evaluate_withProperties_home :
    (evaluate (.reference "d" true) [.frame { defaultVariable := .type Platform.platformType }]
        (linuxEngine.withProperties (linuxEngine.platform.properties.insert "home" "/"))).1 =
      (evaluate (.reference "d" true) [.frame { defaultVariable := .type Platform.platformType }]
        linuxEngine).1 := by
  refine (evaluate_fst_eq_iff_sameProperties (.refl linuxEngine) (acyclic_of_single rfl rfl)
    (fun id x hx => by rw [eq_of_single rfl hx]; rfl) (NameSet.empty.insert "ns.os") _).2
    (fun namespaceName property hname => ?_) (.reference "d" true) rfl rfl (fun n hn => hn) _
  have hne : property ≠ "home" := by
    rintro rfl
    rw [NameSet.contains_insert, NameSet.contains_empty, Bool.or_false, beq_iff_eq] at hname
    have hlast := congrArg (fun s => s.toList.getLast?) hname
    simp [String.toList_append] at hlast
  exact NameMap.find?_insert_of_ne hne _ _

/-- But the system's name does, although no system property is told of. -/
theorem evaluate_withProperties_os :
    (access (.test (valueTest "ns" "os" "linux")) linuxEngine).1.systemProperty = false ∧
      (evaluate (.test (valueTest "ns" "os" "linux"))
        [.frame { defaultVariable := .type Platform.platformType }] linuxEngine).1 = .ok .yes ∧
      (evaluate (.test (valueTest "ns" "os" "linux"))
        [.frame { defaultVariable := .type Platform.platformType }]
        (linuxEngine.withProperties {})).1 = .ok .no := by
  refine ⟨rfl, ?_, ?_⟩
  · rw [evaluate_test_platform]
    rfl
  · rw [evaluate_test_platform]
    rfl

end Engine

end Enablement
