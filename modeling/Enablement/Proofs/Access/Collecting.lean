import Enablement.Expr.Growing
import Enablement.Proofs.Access.Looks
import Enablement.Proofs.Expr.Replacing
/-!
# Access — collecting is joining

Access records form a semilattice under joining. What an expression looks at is put together from
what its children look at by a map that respects joining (`Expr.looksOver_merge`), so it depends on
which children there are, and not on their order, their number or how they are grouped. And
collecting joins what has been collected with what the expression looks at by itself, whatever
definitions have been converted in between (`Engine.collect_joins`).
-/

namespace Enablement

namespace Expr

variable {link : String → Access} {cs ds : List Expr}

/-! ## What children look at together -/

theorem looksAll_append (link : String → Access) (cs ds : List Expr) :
    looksAll link (cs ++ ds) = (looksAll link cs).merge (looksAll link ds) := by
  induction cs with
  | nil => exact (Access.empty_merge _).symm
  | cons c cs ih => rw [List.cons_append, looksAll, looksAll, ih, Access.merge_assoc]

/-- What one of them looks at is part of it. -/
theorem merge_looksAll_of_mem {c : Expr} (hc : c ∈ cs) :
    (c.looks link).merge (looksAll link cs) = looksAll link cs := by
  obtain ⟨front, back, rfl⟩ := List.append_of_mem hc
  rw [looksAll_append, looksAll, Access.merge_left_comm, Access.merge_merge_self]

theorem merge_looksAll_of_subset (h : cs ⊆ ds) :
    (looksAll link cs).merge (looksAll link ds) = looksAll link ds := by
  induction cs with
  | nil => exact Access.empty_merge _
  | cons c cs ih =>
    obtain ⟨hc, hcs⟩ := List.cons_subset.1 h
    rw [looksAll, Access.merge_assoc, ih hcs, merge_looksAll_of_mem hc]

/-- **It depends on which children there are**, and not on their order and number. -/
theorem looksAll_eq_of_subset (h : cs ⊆ ds) (h' : ds ⊆ cs) :
    looksAll link cs = looksAll link ds := by
  rw [← merge_looksAll_of_subset h, Access.merge_comm, merge_looksAll_of_subset h']

/-! ## What an expression over children looks at -/

/-- What an expression looks at whose children look at something. -/
def looksOver : Expr → Access → Access
  | .withVariable name _, a => .mergeRebound {} name a
  | .resolve name _ _, a => .mergeRebound {} name a
  | .adapt _ _, a => (Access.markDefault {}).merge a
  | .iterate _ _ _, a => (Access.markDefault {}).merge a
  | _, a => a

/-- **It respects joining.** -/
theorem looksOver_merge (x : Expr) (a b : Access) :
    x.looksOver (a.merge b) = (x.looksOver a).merge (x.looksOver b) := by
  have hmark : ∀ m : Access, m.merge (a.merge b) = (m.merge a).merge (m.merge b) := fun m => by
    rw [Access.merge_assoc, Access.merge_left_comm a m b, Access.merge_merge_self]
  cases x with
  | withVariable name _ => exact Access.mergeRebound_merge name a b
  | resolve name _ _ => exact Access.mergeRebound_merge name a b
  | adapt _ _ => exact hmark _
  | iterate _ _ _ => exact hmark _
  | _ => rfl

theorem looks_withChildren {x : Expr} (hx : x.takesChildren = true) (cs : List Expr) :
    (x.withChildren cs).looks link = x.looksOver (looksAll link cs) := by
  cases x with
  | and _ | or _ | enablement _ | withVariable _ _ | resolve _ _ _ | adapt _ _ | iterate _ _ _ =>
    rfl
  | _ => cases hx

/-- Over children that look at the same, an expression looks at the same. -/
theorem looks_withChildren_eq {x : Expr}
    (h : List.Forall₂ (fun c d => d.looks link = c.looks link) x.children ds) :
    (x.withChildren ds).looks link = x.looks link := by
  have hall : ∀ {cs ds : List Expr}, List.Forall₂ (fun c d => d.looks link = c.looks link) cs ds →
      looksAll link ds = looksAll link cs := by
    intro cs ds hcs
    induction hcs with
    | nil => rfl
    | cons hcd _ ih => rw [looksAll, looksAll, hcd, ih]
  cases x with
  | not c =>
    cases h with
    | cons hcd _ => exact hcd
  | and cs => exact hall h
  | or cs => exact hall h
  | enablement cs => exact hall h
  | group connective cs => exact hall h
  | withVariable name cs => exact congrArg (Access.mergeRebound {} name) (hall h)
  | resolve name args cs => exact congrArg (Access.mergeRebound {} name) (hall h)
  | adapt target cs => exact congrArg (Access.merge (Access.markDefault {})) (hall h)
  | iterate connective ifEmpty cs => exact congrArg (Access.merge (Access.markDefault {})) (hall h)
  | _ => rfl

end Expr

namespace Engine

variable {e e' : Engine}

/-! ## Collecting -/

/-- **Where names are defined alike, references look at the same**, however many definitions have
been converted. -/
theorem DefinitionsAcyclic.looksOf_congr (h : e.DefinitionsAcyclic) (he : e.SameDefinitions e') :
    e'.looksOf = e.looksOf := by
  have hwithin : ∀ depth id, e'.looksWithin depth id = e.looksWithin depth id := by
    intro depth
    induction depth with
    | zero => exact fun id => rfl
    | succ depth ih =>
      intro id
      rw [looksWithin, looksWithin, he.defined id, funext ih]
  obtain ⟨rank, hbound, hrank⟩ := h.exists_rank
  obtain ⟨rank', hbound', hrank'⟩ := (h.congr he).exists_rank
  funext id
  rw [looksOf, looksOf, hwithin]
  -- the smaller of two ranks is one, and it is below both depths
  have hmin : ∀ id x, e.defined id = .ok x → ∀ id' ∈ x.references,
      min (rank id') (rank' id') < min (rank id) (rank' id) := fun id x hx id' hid' =>
    min_lt_min (hrank id x hx id' hid') (hrank' id x ((he.defined id).trans hx) id' hid')
  exact looksWithin_eq_of_rank hmin _ _ id (min_lt_of_right_lt (hbound' id))
    (min_lt_of_left_lt (hbound id))

/-- **Collecting joins what has been collected with what the expression looks at**, and changes
nothing about what names stand for. -/
theorem DefinitionsAcyclic.collect_adds (h : e.DefinitionsAcyclic) (x : Expr) :
    Collector.Adds e (collect x) (access x e).1 := by
  intro a e' he
  obtain ⟨hadds, -⟩ :=
    x.collector_adds (collectWithin_adds e' e'.referenceDepth) a e' (SameDefinitions.refl e')
  obtain ⟨-, hkept⟩ := x.collector_adds (collectWithin_adds e e'.referenceDepth) a e' he
  refine ⟨?_, hkept⟩
  rw [access_fst, ← h.looksOf_congr he]
  exact hadds

/-- **Collecting is joining in a semilattice.** Joining access records is associative, commutative
and idempotent, and the empty record is neutral. Whatever has been collected, collecting leaves its
join with the access record of the expression, in every engine in which names are defined alike; so
collecting again adds nothing. Where an expression has a list of children, its record is that of
the expression over some of them joined with that over the others; so neither the order nor the
number of the children counts, and some of them can be grouped under a conjunction, a disjunction or
a combination of the host. -/
theorem collect_joins (h : e.DefinitionsAcyclic) :
    (∀ a b c : Access, (a.merge b).merge c = a.merge (b.merge c) ∧ a.merge b = b.merge a ∧
      a.merge a = a ∧ a.merge {} = a ∧ ({} : Access).merge a = a) ∧
    (∀ x a e', e.SameDefinitions e' → (collect x a e').1 = a.merge (access x e).1 ∧
      e.SameDefinitions (collect x a e').2 ∧
      (collect x (collect x a e').1 (collect x a e').2).1 = (collect x a e').1) ∧
    ∀ x : Expr, x.takesChildren = true → ∀ cs ds : List Expr,
      (access (x.withChildren (cs ++ ds)) e).1 =
        (access (x.withChildren cs) e).1.merge (access (x.withChildren ds) e).1 ∧
      (cs ⊆ ds → ds ⊆ cs → (access (x.withChildren cs) e).1 = (access (x.withChildren ds) e).1) ∧
      ∀ g ∈ [Expr.and ds, .or ds, .enablement ds, .group .and ds, .group .or ds], ∀ back,
        (access (x.withChildren (cs ++ g :: back)) e).1 =
          (access (x.withChildren (cs ++ (ds ++ back))) e).1 := by
  refine ⟨fun a b c => ?_, fun x a e' he => ?_, fun x hx cs ds => ?_⟩
  · exact ⟨a.merge_assoc b c, a.merge_comm b, a.merge_self, a.merge_empty, a.empty_merge⟩
  · obtain ⟨hadds, hkept⟩ := h.collect_adds x a e' he
    obtain ⟨hagain, -⟩ := h.collect_adds x (collect x a e').1 (collect x a e').2 hkept
    refine ⟨hadds, hkept, ?_⟩
    rw [hagain, hadds, Access.merge_assoc, Access.merge_self]
  · have hover : ∀ cs : List Expr, (access (x.withChildren cs) e).1 =
        x.looksOver (Expr.looksAll e.looksOf cs) := fun cs => by
      rw [access_fst, Expr.looks_withChildren hx]
    refine ⟨?_, fun hsub hsup => ?_, fun g hg back => ?_⟩
    · rw [hover, hover, hover, Expr.looksAll_append, Expr.looksOver_merge]
    · rw [hover, hover, Expr.looksAll_eq_of_subset hsub hsup]
    · have hgroup : g.looks e.looksOf = Expr.looksAll e.looksOf ds := by
        simp only [List.mem_cons, List.not_mem_nil, or_false] at hg
        obtain rfl | rfl | rfl | rfl | rfl := hg <;> rfl
      rw [hover, hover, Expr.looksAll_append, Expr.looksAll_append, Expr.looksAll_append,
        Expr.looksAll, hgroup]

/-- A definition that refers to another one is collected, and then collected again. -/
theorem nestedLists_collect_joins :
    nestedLists.DefinitionsAcyclic ∧ nestedLists.SameDefinitions nestedLists ∧
      (collect (.withVariable "v" [.reference "lists" true]) (.markSystem {}) nestedLists).1 =
        Access.addVariable (.markSystem {}) "v" ∧
      (collect (.withVariable "v" [.reference "lists" true])
          (collect (.withVariable "v" [.reference "lists" true]) (.markSystem {}) nestedLists).1
          (collect (.withVariable "v" [.reference "lists" true]) (.markSystem {})
            nestedLists).2).1 =
        Access.addVariable (.markSystem {}) "v" := by
  obtain ⟨-, hcollect, -⟩ := collect_joins nestedLists_acyclic
  obtain ⟨hjoined, -, hagain⟩ := hcollect (.withVariable "v" [.reference "lists" true])
    (.markSystem {}) nestedLists (.refl nestedLists)
  have hfirst : (collect (.withVariable "v" [.reference "lists" true]) (.markSystem {})
      nestedLists).1 = Access.addVariable (.markSystem {}) "v" := hjoined.trans rfl
  exact ⟨nestedLists_acyclic, .refl nestedLists, hfirst, hagain.trans hfirst⟩

end Engine

end Enablement
