import Enablement.Expr.Sharing
import Enablement.Proofs.Expr.Equivalence
/-!
# Hash codes — what is kept is what would be computed

A node that is asked for its hash code may answer from its cell, and asking it may fill the cells of
the nodes below. What a cell keeps is always the code of its node, and a code is never mistaken for
an empty cell, so the answer does not depend on what was asked before (`Sharing.hashCode_eq_code`).
Equal expressions therefore have equal hash codes wherever they stand and whenever they are asked.
-/

namespace Enablement

namespace Sharing

variable {s : Sharing} {h : Hasher} {cells : Cells} {places : List Nat} {i : Nat} {n : SharedNode}

/-- Every cell is empty, or else it keeps the code of its node. -/
def Truthful (s : Sharing) (h : Hasher) (cells : Cells) : Prop :=
  ∀ (i : Nat) (n : SharedNode), s.nodes[i]? = some n →
    (cells i).stored = notComputed ∨ (cells i).stored = n.expr.code h

theorem truthful_empty (s : Sharing) (h : Hasher) : s.Truthful h Cells.empty :=
  fun _ _ _ => .inl rfl

/-- Cells stay truthful when the code of a node is kept. -/
theorem Truthful.keep (hcells : s.Truthful h cells) (hi : s.nodes[i]? = some n) :
    s.Truthful h (cells.keep i (n.expr.code h)) := by
  intro j m hj
  rw [Cells.keep]
  split
  · next hji =>
    rw [hji, hi] at hj
    cases hj
    exact .inr rfl
  · exact hcells j m hj

/-- Asking a place gives the code of its node and leaves truthful cells. -/
def AnswersAt (s : Sharing) (h : Hasher) (ask : Nat → Cells → UInt32 × Cells) (i : Nat) : Prop :=
  ∀ (n : SharedNode) (cells : Cells), s.nodes[i]? = some n → s.Truthful h cells →
    (ask i cells).1 = n.expr.code h ∧ s.Truthful h (ask i cells).2

/-- Several nodes are asked one after another. -/
theorem askAll_eq {ask : Nat → Cells → UInt32 × Cells} {es : List Expr}
    (hplaces : places.map (fun j => s.nodes[j]?.map SharedNode.expr) = es.map some)
    (hask : ∀ j ∈ places, s.AnswersAt h ask j) (hcells : s.Truthful h cells) :
    (askAll ask places cells).1 = es.map (Expr.code h) ∧
      s.Truthful h (askAll ask places cells).2 := by
  induction places generalizing es cells with
  | nil =>
    cases es with
    | nil => exact ⟨rfl, hcells⟩
    | cons e es => cases hplaces
  | cons j rest ih =>
    cases es with
    | nil => cases hplaces
    | cons e es =>
      obtain ⟨hhead, htail⟩ := List.cons.inj hplaces
      obtain ⟨m, hm, rfl⟩ := Option.map_eq_some_iff.1 hhead
      obtain ⟨hcode, hcells⟩ := hask j List.mem_cons_self m cells hm hcells
      obtain ⟨hcodes, hcells⟩ := ih htail (fun k hk => hask k (List.mem_cons_of_mem j hk)) hcells
      exact ⟨congrArg₂ List.cons hcode hcodes, hcells⟩

/-- A depth beyond the place is enough, since children stand before their parents. -/
theorem answersAt_hashWithin {depth : Nat} (hdepth : i < depth) :
    s.AnswersAt h (s.hashWithin h depth) i := by
  induction depth generalizing i with
  | zero => exact absurd hdepth (Nat.not_lt_zero i)
  | succ depth ih =>
    intro n cells hi hcells
    rw [hashWithin, hi]
    dsimp only
    split
    · next hkept =>
      obtain ⟨-, hstored⟩ := Bool.and_eq_true_iff.1 hkept
      exact ⟨(hcells i n hi).resolve_left (bne_iff_ne.1 hstored), hcells⟩
    · obtain ⟨hcodes, hafter⟩ := askAll_eq (s.places_expr i n hi)
        (fun j hj => ih (Nat.lt_of_lt_of_le (s.places_lt i n hi j hj) (Nat.lt_succ_iff.1 hdepth)))
        hcells
      rw [hcodes, ← Expr.code_eq_codeOver]
      refine ⟨rfl, ?_⟩
      split
      · exact hafter.keep hi
      · exact hafter

/-- **The hash code does not depend on what the cells keep**, as long as they are truthful. -/
theorem hashCode_eq_code (hi : s.nodes[i]? = some n) (hcells : s.Truthful h cells) :
    (s.hashCode h i cells).1 = n.expr.code h :=
  (answersAt_hashWithin (Nat.lt_succ_self i) n cells hi hcells).1

/-- Asking any place leaves truthful cells. -/
theorem Truthful.hashCode (hcells : s.Truthful h cells) (i : Nat) :
    s.Truthful h (s.hashCode h i cells).2 := by
  cases hi : s.nodes[i]? with
  | none =>
    rw [Sharing.hashCode, hashWithin, hi]
    exact hcells
  | some n => exact (answersAt_hashWithin (Nat.lt_succ_self i) n cells hi hcells).2

/-- The cells after places have been asked, in order and perhaps again and again. -/
def cellsAfter (s : Sharing) (h : Hasher) (asked : List Nat) : Cells :=
  asked.foldl (fun cells i => (s.hashCode h i cells).2) Cells.empty

/-- **Cells are truthful whatever has been asked.** -/
theorem truthful_cellsAfter (s : Sharing) (h : Hasher) (asked : List Nat) :
    s.Truthful h (s.cellsAfter h asked) := by
  have hrun (cells : Cells) (hcells : s.Truthful h cells) :
      s.Truthful h (asked.foldl (fun cells i => (s.hashCode h i cells).2) cells) := by
    induction asked generalizing cells with
    | nil => exact hcells
    | cons i rest ih => exact ih _ (hcells.hashCode i)
  exact hrun _ (truthful_empty s h)

/-- **Equality is an equivalence that kept hash codes respect.** Equal expressions, wherever they
are shared, answer with one hash code, in whatever order and however often they and the nodes below
were asked before; codes that look like an empty cell are no exception. -/
theorem same_equivalence_hashed :
    (∀ a : Expr, (a == a) = true) ∧
    (∀ a b : Expr, (a == b) = true → (b == a) = true) ∧
    (∀ a b c : Expr, (a == b) = true → (b == c) = true → (a == c) = true) ∧
    ∀ (s : Sharing) (h : Hasher) (asked asked' : List Nat) (i j : Nat) (m n : SharedNode),
      s.nodes[i]? = some m → s.nodes[j]? = some n → (m.expr == n.expr) = true →
        (s.hashCode h i (s.cellsAfter h asked)).1 = (s.hashCode h j (s.cellsAfter h asked')).1 := by
  refine ⟨Expr.same_self, fun _ _ => Expr.same_symm, fun _ _ _ => Expr.same_trans, ?_⟩
  intro s h asked asked' i j m n hi hj hsame
  rw [hashCode_eq_code hi (truthful_cellsAfter s h asked),
    hashCode_eq_code hj (truthful_cellsAfter s h asked'), Expr.code_congr hsame]

/-- Two conjunctions that share a negation and differ in how they write three. -/
def twoThrees : Sharing where
  nodes :=
    let three : Expr := .equals (.number (.int 3))
    let point : Expr := .equals (.number (.float ⟨0x4008000000000000⟩))
    [⟨three, []⟩, ⟨.not three, [0]⟩, ⟨point, []⟩, ⟨.and [.not three, point], [1, 2]⟩,
      ⟨.and [.not three, three], [1, 0]⟩]
  places_lt i n h := by
    match i with
    | 0 | 1 | 2 | 3 | 4 =>
      cases h
      decide
    | i + 5 => cases h
  places_expr i n h := by
    match i with
    | 0 | 1 | 2 | 3 | 4 =>
      cases h
      rfl
    | i + 5 => cases h

/-- Their codes agree, also for a hasher whose codes all look like an empty cell. -/
theorem same_equivalence_hashed_shared :
    (twoThrees.hashCode (fun _ => notComputed) 3
        (twoThrees.cellsAfter (fun _ => notComputed) [1, 0])).1 =
      (twoThrees.hashCode (fun _ => notComputed) 4
        (twoThrees.cellsAfter (fun _ => notComputed) [2, 3, 3])).1 := by
  obtain ⟨-, -, -, hcodes⟩ := same_equivalence_hashed
  exact hcodes twoThrees _ [1, 0] [2, 3, 3] 3 4 _ _ rfl rfl (by decide)

end Sharing

end Enablement
