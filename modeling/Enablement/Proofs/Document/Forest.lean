import Enablement.Proofs.Document.Links
import Enablement.Proofs.Rank
/-!
# Document trees — the links always form a forest

First child, last child, next sibling and parent are four links that are written apart. They are
held together by the list of children that each node has: the chain of siblings goes through the
list, the last child ends it, and the parent of a node is the node whose list it is in. The list of
a node is nothing but the history: the nodes that were attached to it, in the order of the edits.
That nothing is attached below itself keeps the parents free of cycles.
-/

namespace Enablement

namespace Document

open Relation

variable {d d' : Document} {n m p c : ℕ}

/-! ## Chains of siblings -/

/-- The nodes from a first one on, each of them the next sibling of the one before. -/
inductive Siblings (d : Document) : Option ℕ → List ℕ → Prop where
  | nil : Siblings d none []
  | cons {n : ℕ} {rest : List ℕ} (h : Siblings d (d.nextSibling? n) rest) :
    Siblings d (some n) (n :: rest)

namespace Siblings

variable {first : Option ℕ} {l : List ℕ}

/-- A chain depends on the next siblings of its own nodes only. -/
theorem congr (h : Siblings d first l) (hnext : ∀ n ∈ l, d'.nextSibling? n = d.nextSibling? n) :
    Siblings d' first l := by
  induction h with
  | nil => exact .nil
  | @cons n rest h ih =>
    refine .cons ?_
    rw [hnext n List.mem_cons_self]
    exact ih fun m hm => hnext m (List.mem_cons_of_mem _ hm)

/-- A chain without repetitions gets longer when its end is linked to a node that ends. -/
theorem snoc (h : Siblings d first l) (hl : l.Nodup) (hend : d'.nextSibling? c = none)
    (hnext : ∀ n ∈ l, d'.nextSibling? n =
      if l.getLast? = some n then some c else d.nextSibling? n) :
    Siblings d' (if l = [] then some c else first) (l ++ [c]) := by
  induction h with
  | nil =>
    refine .cons ?_
    rw [hend]
    exact .nil
  | @cons n rest h ih =>
    rw [if_neg (List.cons_ne_nil _ _)]
    refine .cons ?_
    obtain ⟨hn, hrest⟩ := List.nodup_cons.1 hl
    have hlast : (n :: rest).getLast? = some n ↔ rest = [] := by
      cases rest with
      | nil => simp
      | cons m rest =>
        -- the last node is further on, and no node comes twice
        rw [List.getLast?_cons_cons]
        exact ⟨fun h => absurd (List.mem_of_getLast? h) hn, nofun⟩
    rw [hnext n List.mem_cons_self, if_congr hlast rfl rfl]
    refine ih hrest fun m hm => ?_
    have hmem := hnext m (List.mem_cons_of_mem _ hm)
    cases rest with
    | nil => cases hm
    | cons a rest => rwa [List.getLast?_cons_cons] at hmem

/-- A walk that may be as long as the chain goes through all of it. -/
theorem chain_eq (h : Siblings d first l) {fuel : ℕ} (hfuel : l.length ≤ fuel) :
    d.chain fuel first = l := by
  induction h generalizing fuel with
  | nil => cases fuel <;> rfl
  | cons h ih =>
    cases fuel with
    | zero => cases hfuel
    | succ fuel => rw [chain, ih (Nat.le_of_succ_le_succ hfuel)]

end Siblings

/-! ## Walks upwards -/

/-- A walk upwards that may be longer than the rank of its start finds every ancestor. -/
theorem reachesUp_iff {rank : ℕ → ℕ}
    (hrank : ∀ c p, d.ChildOf c p → rank p < rank c) {a fuel n : ℕ} (h : rank n < fuel) :
    d.reachesUp a fuel n = true ↔ ReflTransGen d.ChildOf n a := by
  induction fuel generalizing n with
  | zero => exact absurd h (Nat.not_lt_zero _)
  | succ fuel ih =>
    have hup : d.reachesUp a (fuel + 1) n = true ↔
        n = a ∨ ∃ p, d.ChildOf n p ∧ d.reachesUp a fuel p = true := by
      simp only [reachesUp, ChildOf, parent?]
      cases d.nodes[n]? with
      | none => simp
      | some node => cases hp : node.parent <;> simp [hp]
    rw [hup, ReflTransGen.cases_head_iff]
    refine or_congr Iff.rfl (exists_congr fun p => and_congr_right fun hp => ?_)
    exact ih ((hrank n p hp).trans_le (Nat.le_of_lt_succ h))

/-! ## The invariant -/

/-- The links of a document are those of a forest in which each node has some children. -/
structure Forest (d : Document) (children : ℕ → List ℕ) : Prop where
  siblings : ∀ n, Siblings d (d.firstChild? n) (children n)
  last : ∀ n, d.lastChild? n = (children n).getLast?
  nodup : ∀ n, (children n).Nodup
  mem_iff : ∀ {n c}, c ∈ children n ↔ d.ChildOf c n
  /-- A parent is a node of the document. -/
  known : ∀ {n c}, d.ChildOf c n → n < d.nodes.length
  /-- A node without a parent has no next sibling. -/
  loose : ∀ n, d.parent? n = none → d.nextSibling? n = none
  noCycle : NoCycle d.ChildOf

/-- The children after a node was attached. -/
def attach (children : ℕ → List ℕ) (p c n : ℕ) : List ℕ :=
  if n = p then children n ++ [c] else children n

namespace Forest

variable {children : ℕ → List ℕ}

theorem empty (contributor : Option String) : Forest { contributor } fun _ => [] where
  siblings _ := .nil
  last _ := rfl
  nodup _ := List.nodup_nil
  mem_iff := ⟨nofun, nofun⟩
  known := nofun
  loose _ _ := rfl
  noCycle := noCycle_of_rank (fun _ => 0) nofun

/-- Edits that change no link keep the forest. -/
theorem sameLinks (hd : Forest d children) (h : SameLinks d d') : Forest d' children := by
  have hparent : d'.ChildOf = d.ChildOf := by
    funext c p
    rw [ChildOf, h.parent, ChildOf]
  exact {
    siblings := fun n => by
      rw [h.firstChild]
      exact (hd.siblings n).congr fun m _ => h.nextSibling m
    last := fun n => (h.lastChild n).trans (hd.last n)
    nodup := hd.nodup
    mem_iff := hparent ▸ hd.mem_iff
    known := fun hc => (hd.known (hparent ▸ hc)).trans_le h.size
    loose := fun n hn => by
      rw [h.nextSibling]
      exact hd.loose n (h.parent n ▸ hn)
    noCycle := hparent ▸ hd.noCycle }

theorem eq_of_mem (hd : Forest d children) (hn : c ∈ children n) (hm : c ∈ children m) : n = m :=
  Option.some.inj ((hd.mem_iff.1 hn).symm.trans (hd.mem_iff.1 hm))

theorem lt_of_mem (hd : Forest d children) (h : c ∈ children n) : c < d.nodes.length :=
  lt_of_childOf (hd.mem_iff.1 h)

/-- There are at most as many children as there are nodes. -/
theorem length_le (hd : Forest d children) (n : ℕ) : (children n).length ≤ d.nodes.length := by
  have hsub : children n ⊆ List.range d.nodes.length := fun c hc =>
    List.mem_range.2 (hd.lt_of_mem hc)
  have hle := ((hd.nodup n).subperm hsub).length_le
  rwa [List.length_range] at hle

/-- The walk through the children of a node finds its children. -/
theorem childNodes_eq (hd : Forest d children) (n : ℕ) : d.childNodes n = children n :=
  (hd.siblings n).chain_eq (hd.length_le n)

/-- The walk towards the root, which is bounded by the number of nodes, misses no ancestor. -/
theorem isAncestorOrSelf_iff (hd : Forest d children) (a n : ℕ) :
    d.isAncestorOrSelf a n = true ↔ ReflTransGen d.ChildOf n a := by
  obtain ⟨rank, hle, hrank⟩ := exists_rank hd.noCycle (Finset.range d.nodes.length)
    fun _ _ h => Finset.mem_range.2 (lt_of_childOf h)
  refine reachesUp_iff hrank (Nat.lt_succ_of_le ?_)
  exact (hle n).trans_eq (Finset.card_range _)

/-- A node can be attached to another if both are known, it has no parent, and the other is not
below it. -/
theorem canAppend_iff (hd : Forest d children) : d.canAppend p c = true ↔
    p < d.nodes.length ∧ c < d.nodes.length ∧ d.parent? c = none ∧
      ¬ ReflTransGen d.ChildOf p c := by
  rw [Document.canAppend_iff, ← hd.isAncestorOrSelf_iff, Bool.not_eq_true]

/-! ### Attaching a node -/

theorem mem_of_lastChild? (hd : Forest d children) (h : d.lastChild? p = some m) :
    m ∈ children p :=
  List.mem_of_getLast? ((hd.last p).symm.trans h)

theorem notMem_of_loose (hd : Forest d children) (h : d.parent? c = none) (n : ℕ) :
    c ∉ children n := fun hc => by
  have hp := hd.mem_iff.1 hc
  rw [ChildOf, h] at hp
  cases hp

section Append

variable (hd : Forest d children) (h : d.canAppend p c = true)
include hd h

theorem nextSibling?_append (n : ℕ) : (d.append p c).1.nextSibling? n =
    if (children p).getLast? = some n then some c else d.nextSibling? n := by
  rw [Document.nextSibling?_append h fun last hl => hd.lt_of_mem (hd.mem_of_lastChild? hl), hd.last]

/-- What has no parent still ends the chain that it is in. -/
theorem loose_append (n : ℕ) (hn : d.parent? n = none) :
    (d.append p c).1.nextSibling? n = none := by
  rw [hd.nextSibling?_append h, if_neg, hd.loose n hn]
  exact fun hl => hd.notMem_of_loose hn p (List.mem_of_getLast? hl)

theorem siblings_append (n : ℕ) :
    Siblings (d.append p c).1 ((d.append p c).1.firstChild? n) (attach children p c n) := by
  have hloose := (hd.canAppend_iff.1 h).2.2.1
  rw [attach, firstChild?_append h, hd.last]
  by_cases hn : n = p
  · subst hn
    have hsnoc := (hd.siblings n).snoc (hd.nodup n) (hd.loose_append h c hloose)
      fun m _ => hd.nextSibling?_append h m
    simpa using hsnoc
  · -- the changed link is that of a child of `p`, and no other node has that child
    rw [if_neg hn, if_neg fun h => hn h.1]
    refine (hd.siblings n).congr fun m hm => ?_
    rw [hd.nextSibling?_append h, if_neg]
    exact fun hl => hn (hd.eq_of_mem hm (List.mem_of_getLast? hl))

theorem nodup_append (n : ℕ) : (attach children p c n).Nodup := by
  have hfresh := hd.notMem_of_loose (hd.canAppend_iff.1 h).2.2.1
  rw [attach]
  split
  · rw [← List.concat_eq_append, List.nodup_concat]
    exact ⟨hfresh n, hd.nodup n⟩
  · exact hd.nodup n

/-- Attaching a node keeps the forest, and the node is the last child from then on. -/
theorem append : Forest (d.append p c).1 (attach children p c) := by
  obtain ⟨hp, -, -, hbelow⟩ := hd.canAppend_iff.1 h
  have hchild := childOf_append h
  exact {
    siblings := hd.siblings_append h
    last := fun n => by
      rw [attach, lastChild?_append h, hd.last]
      split
      · exact List.getLast?_concat.symm
      · rfl
    nodup := hd.nodup_append h
    mem_iff := fun {n x} => by
      rw [hchild, attach]
      by_cases hn : n = p <;> simp [hd.mem_iff, hn]
    known := fun {n x} hx => by
      rw [length_append]
      obtain hx | ⟨-, rfl⟩ := (hchild x n).1 hx
      · exact hd.known hx
      · exact hp
    loose := fun n hn => by
      rw [parent?_append h] at hn
      split at hn
      · cases hn
      · exact hd.loose_append h n hn
    noCycle := (hd.noCycle.insert hbelow).mono fun x y => (hchild x y).1 }

end Append

end Forest

/-! ## The history of a document -/

/-- The node that an edit attaches to `n`, if it does. -/
def attaches (d : Document) (n : ℕ) : Edit → List ℕ
  | .append p c => if n = p ∧ (d.append p c).2 then [c] else []
  | _ => []

/-- The nodes that were attached to `n`, in the order of the edits. -/
def attached (n : ℕ) : Document → List Edit → List ℕ
  | _, [] => []
  | d, edit :: edits => d.attaches n edit ++ attached n (d.perform edit) edits

/-- **An edit keeps the forest**, with the attached node as one more child. -/
theorem Forest.perform {children : ℕ → List ℕ} (hd : Forest d children) (edit : Edit) :
    Forest (d.perform edit) fun n => children n ++ d.attaches n edit := by
  have hsame : (∀ n, d.attaches n edit = []) → SameLinks d (d.perform edit) →
      Forest (d.perform edit) fun n => children n ++ d.attaches n edit := fun hnone h => by
    simpa only [hnone, List.append_nil] using hd.sameLinks h
  cases edit with
  | element name => exact hsame (fun _ => rfl) (sameLinks_create ..)
  | text t => exact hsame (fun _ => rfl) (sameLinks_create ..)
  | comment t => exact hsame (fun _ => rfl) (sameLinks_create ..)
  | setAttribute m name value => exact hsame (fun _ => rfl) (sameLinks_setAttribute ..)
  | append p c =>
    cases h : d.canAppend p c with
    | false =>
      simpa [attaches, Document.perform, append_of_not h] using hd
    | true =>
      have hattach : (fun n => children n ++ d.attaches n (.append p c)) = attach children p c := by
        funext n
        by_cases hn : n = p <;> simp [attaches, attach, append_snd, h, hn]
      rw [hattach]
      exact hd.append h

/-- **Every document is a forest**, and its children are those that the edits attached. -/
theorem Forest.after {children : ℕ → List ℕ} (hd : Forest d children) (edits : List Edit) :
    Forest (d.after edits) fun n => children n ++ attached n d edits := by
  induction edits generalizing d children with
  | nil => simpa [Document.after, attached] using hd
  | cons edit edits ih =>
    simpa [Document.after, attached, List.append_assoc] using ih (hd.perform edit)

theorem forest_built (contributor : Option String) (edits : List Edit) :
    Forest (built contributor edits) fun n => attached n { contributor } edits := by
  simpa [built] using (Forest.empty contributor).after edits

end Document

end Enablement
