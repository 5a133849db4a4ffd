import Enablement.Scope
import Mathlib.Data.List.Basic
import Mathlib.Data.Nat.Notation
/-!
# Scope trees — where questions and changes end up

Scopes send on what they leave to others, and not all of them to the scope they are nested in: one
that rebinds the default variable once sends it past all scopes of its kind, to a number that was
computed when it was made. In every tree that is made by nesting scopes this makes no difference
(`Nested.ask_eq_foldr`): a question goes through the frames that enclose a scope, the innermost
first, and is answered from these frames alone.
-/

namespace Enablement

/-- The kinds of scopes. -/
inductive ScopeKind where
  | frame
  | rebound
  | stepping
  deriving DecidableEq

def Scope.kind : Scope → ScopeKind
  | .frame _ => .frame
  | .rebound _ => .rebound
  | .stepping _ _ => .stepping

/-- What of an entry decides where it sends on: all but what its scope holds. -/
def ScopeEntry.outline (e : ScopeEntry) : Option ℕ × ℕ × ScopeKind :=
  (e.parent, e.pool, e.scope.kind)

namespace ScopeTree

variable {t t' : ScopeTree} {k m n p : ℕ} {e : ScopeEntry} {f g : Frame}

/-! ## Live scopes -/

/-- What can be said to a scope about named variables and about the permission. -/
inductive Write where
  | bind (name : String) (value : Value)
  | unbind (name : String)
  | allow (value : Bool)

/-- The tree after something was said to scope `k`. -/
def write (t : ScopeTree) (k : ℕ) : Write → ScopeTree
  | .bind name value => t.setVariable k name value
  | .unbind name => (t.removeVariable k name).1
  | .allow value => t.setAllowActivation k value

/-- A frame that something was said to. -/
def Write.apply : Write → Frame → Frame
  | .bind name value, f => { f with bindings := f.bindings.insert name value }
  | .unbind name, f => { f with bindings := f.bindings.erase name }
  | .allow value, f => { f with allowActivation := some value }

theorem write_eq_modifyFrame (t : ScopeTree) (k : ℕ) (w : Write) :
    t.write k w = t.modifyFrame k w.apply := by
  cases w <;> rfl

/-- The trees of scopes that are alive: scopes are nested in others in any way, and any of them is
written to or stepped forward at any time. Only frames do without a parent. -/
inductive Live : ScopeTree → Prop
  | empty : Live {}
  | root {t : ScopeTree} (ht : Live t) (f : Frame) : Live (t.push none (.frame f)).1
  | nested {t : ScopeTree} {p : ℕ} (ht : Live t) (hp : p < t.entries.length) (s : Scope) :
    Live (t.push (some p) s).1
  | pop {t : ScopeTree} (ht : Live t) : Live t.pop
  | write {t : ScopeTree} (ht : Live t) (k : ℕ) (w : Write) : Live (t.write k w)
  | advance {t : ScopeTree} (ht : Live t) (k : ℕ) : Live (t.advance k).1

/-! ## The invariant -/

/-- What holds of a tree however its scopes were nested: a parent has a smaller number, what has no
parent is a frame, and a scope is its own pool unless it took over that of its parent. -/
structure Nested (t : ScopeTree) : Prop where
  parent_lt : ∀ {k : ℕ} {e : ScopeEntry} {p : ℕ}, t.entries[k]? = some e → e.parent = some p → p < k
  frame_of_root : ∀ {k : ℕ} {e : ScopeEntry}, t.entries[k]? = some e → e.parent = none →
    e.scope.kind = .frame
  pool_own : ∀ {k : ℕ} {e : ScopeEntry}, t.entries[k]? = some e → e.scope.kind ≠ .rebound →
    e.pool = k
  pool_parent : ∀ {k : ℕ} {e : ScopeEntry} {p : ℕ}, t.entries[k]? = some e →
    e.scope.kind = .rebound → e.parent = some p → e.pool = t.pool p

/-! ## The frames that enclose a scope -/

/-- The frames that enclose a scope, with their numbers and the innermost first: the scope itself if
it is a frame, and those that enclose the scope it is nested in. -/
inductive Stack (t : ScopeTree) : Option ℕ → List (ℕ × Frame) → Prop
  | outside : Stack t none []
  | frame {k : ℕ} {e : ScopeEntry} {f : Frame} {frames : List (ℕ × Frame)}
    (he : t.entries[k]? = some e) (hf : e.scope = .frame f) (outer : Stack t e.parent frames) :
    Stack t (some k) ((k, f) :: frames)
  | other {k : ℕ} {e : ScopeEntry} {frames : List (ℕ × Frame)} (he : t.entries[k]? = some e)
    (hf : e.scope.kind ≠ .frame) (outer : Stack t e.parent frames) : Stack t (some k) frames

namespace Nested

variable {α : Type} (own : ℕ → Frame → α → α) (last : α)

/-- Every scope is enclosed by some frame. -/
theorem exists_stack (ht : Nested t) (hk : k < t.entries.length) :
    ∃ n f outer, Stack t (some k) ((n, f) :: outer) := by
  induction k using Nat.strongRecOn with
  | ind k ih =>
  have he := List.getElem?_eq_getElem hk
  generalize t.entries[k] = e at he
  have hparent : ∀ p, e.parent = some p →
      ∃ n f outer, Stack t (some p) ((n, f) :: outer) := fun p hp =>
    ih p (ht.parent_lt he hp) (Nat.lt_trans (ht.parent_lt he hp) hk)
  cases hs : e.scope with
  | frame f =>
    cases hp : e.parent with
    | none => exact ⟨k, f, [], .frame he hs (hp ▸ .outside)⟩
    | some p =>
      obtain ⟨n, g, outer, h⟩ := hparent p hp
      exact ⟨k, f, (n, g) :: outer, .frame he hs (hp ▸ h)⟩
  | rebound v | stepping v rest =>
    have hkind : e.scope.kind ≠ .frame := by rw [hs]; exact nofun
    cases hp : e.parent with
    | none => exact absurd (ht.frame_of_root he hp) hkind
    | some p =>
      obtain ⟨n, g, outer, h⟩ := hparent p hp
      exact ⟨n, g, outer, .other he hkind (hp ▸ h)⟩

/-- A pool is the scope itself or has a smaller number. -/
theorem pool_le (ht : Nested t) (k : ℕ) : t.pool k ≤ k := by
  induction k using Nat.strongRecOn with
  | ind k ih =>
  rw [pool]
  split
  · exact Nat.le_refl k
  · next e he =>
    by_cases hkind : e.scope.kind = .rebound
    · cases hp : e.parent with
      | none =>
        rw [ht.frame_of_root he hp] at hkind
        cases hkind
      | some p =>
        have hlt := ht.parent_lt he hp
        rw [ht.pool_parent he hkind hp]
        exact Nat.le_trans (ih p hlt) (Nat.le_of_lt hlt)
    · exact Nat.le_of_eq (ht.pool_own he hkind)

/-- A scope that rebinds the default variable once sends on to the pool of its parent. -/
theorem ask_rebound (ht : Nested t) {v : Value} (he : t.entries[k]? = some e)
    (hs : e.scope = .rebound v) (hp : e.parent = some p) :
    t.ask own last k = t.ask own last (t.pool p) := by
  have hpool : e.pool = t.pool p := ht.pool_parent he (hs ▸ rfl) hp
  have hlt : t.pool p < k := Nat.lt_of_le_of_lt (ht.pool_le p) (ht.parent_lt he hp)
  rw [ask, he]
  simp only [hs, ScopeEntry.next?, hpool, if_pos hlt]

/-- A question to a pool is the question to the scopes that it is the pool of. -/
theorem ask_pool (ht : Nested t) (k : ℕ) : t.ask own last (t.pool k) = t.ask own last k := by
  cases he : t.entries[k]? with
  | none => rw [pool, he]
  | some e =>
    have hpool : t.pool k = e.pool := by rw [pool, he]
    by_cases hkind : e.scope.kind = .rebound
    · cases hp : e.parent with
      | none =>
        rw [ht.frame_of_root he hp] at hkind
        cases hkind
      | some p =>
        cases hs : e.scope with
        | rebound v =>
          rw [ht.ask_rebound own last he hs hp, hpool, ht.pool_parent he hkind hp]
        | frame f | stepping v rest => rw [hs] at hkind; cases hkind
    · rw [hpool, ht.pool_own he hkind]

/-- **A question is answered from the frames that enclose a scope.** -/
theorem ask_eq_foldr (ht : Nested t) {frames : List (ℕ × Frame)} (h : Stack t (some k) frames) :
    t.ask own last k = frames.foldr (fun e rest => own e.1 e.2 rest) last := by
  have hstack : ∀ {o : Option ℕ} {frames}, Stack t o frames →
      o.elim last (t.ask own last) = frames.foldr (fun e rest => own e.1 e.2 rest) last := by
    intro o frames h
    induction h with
    | outside => rfl
    | @frame k e f frames he hf outer ih =>
      rw [Option.elim_some, ask, he, List.foldr_cons, ← ih]
      cases hp : e.parent with
      | none => simp only [hf, ScopeEntry.next?, hp, Option.elim_none]
      | some p =>
        simp only [hf, ScopeEntry.next?, hp, if_pos (ht.parent_lt he hp), Option.elim_some]
    | @other k e frames he hf outer ih =>
      rw [Option.elim_some, ← ih]
      cases hp : e.parent with
      | none => exact absurd (ht.frame_of_root he hp) hf
      | some p =>
        rw [Option.elim_some]
        cases hs : e.scope with
        | frame f => exact absurd (hs ▸ rfl) hf
        | rebound v => rw [ht.ask_rebound own last he hs hp, ht.ask_pool]
        | stepping v rest =>
          rw [ask, he]
          simp only [hs, ScopeEntry.next?, hp, if_pos (ht.parent_lt he hp)]
  exact hstack h

/-- Changes are sent to the innermost frame. -/
theorem frameOf?_eq (ht : Nested t) {outer : List (ℕ × Frame)}
    (h : Stack t (some k) ((n, f) :: outer)) : t.frameOf? k = some (n, f) :=
  ht.ask_eq_foldr _ _ h

end Nested

/-- A frame of a stack is a scope of the tree. -/
theorem Stack.getElem? {o : Option ℕ} {frames : List (ℕ × Frame)} (h : Stack t o frames)
    (hn : (n, f) ∈ frames) : ∃ e, t.entries[n]? = some e ∧ e.scope = .frame f := by
  induction h with
  | outside => cases hn
  | @frame k e f frames he hf outer ih =>
    rcases List.mem_cons.1 hn with hn | hn
    · cases hn
      exact ⟨e, he, hf⟩
    · exact ih hn
  | other he hf outer ih => exact ih hn

/-! ## The invariant is kept -/

theorem getElem?_push (t : ScopeTree) (parent : Option ℕ) (s : Scope) (k : ℕ) :
    (t.push parent s).1.entries[k]? =
      if k < t.entries.length then t.entries[k]?
      else if k = t.entries.length then some ⟨parent, t.poolFor parent s, s⟩
      else none := by
  rw [push, List.getElem?_append]
  split
  · rfl
  · next h =>
    rw [List.getElem?_singleton]
    have hzero : k - t.entries.length = 0 ↔ k = t.entries.length := by omega
    rw [if_congr hzero rfl rfl]

theorem getElem?_modify (t : ScopeTree) (m k : ℕ) (f : Scope → Scope) :
    (t.modify m f).entries[k]? =
      if m = k then t.entries[k]?.map fun e => { e with scope := f e.scope }
      else t.entries[k]? := by
  rw [modify, List.getElem?_modify]
  split <;> simp

theorem getElem?_pop {k : ℕ} (h : t.pop.entries[k]? = some e) : t.entries[k]? = some e := by
  rw [pop, List.getElem?_dropLast] at h
  split at h
  · exact h
  · cases h

namespace Nested

/-- A new scope has a parent that is alive, or is a frame. -/
theorem push (ht : Nested t) {parent : Option ℕ} {s : Scope}
    (hparent : ∀ p, parent = some p → p < t.entries.length)
    (hroot : parent = none → s.kind = .frame) : Nested (t.push parent s).1 := by
  have hentry : ∀ {k e}, (t.push parent s).1.entries[k]? = some e →
      k < t.entries.length ∧ t.entries[k]? = some e ∨
        k = t.entries.length ∧ e = ⟨parent, t.poolFor parent s, s⟩ := by
    intro k e he
    rw [getElem?_push] at he
    split at he
    · next hk => exact .inl ⟨hk, he⟩
    · split at he
      · next hk => exact .inr ⟨hk, (Option.some.inj he).symm⟩
      · cases he
  -- the pools of the scopes that were there are as before
  have hpool : ∀ {p}, p < t.entries.length → (t.push parent s).1.pool p = t.pool p := by
    intro p hp
    rw [pool, pool, getElem?_push, if_pos hp]
  constructor
  · intro k e p he hp
    obtain ⟨-, he⟩ | ⟨rfl, rfl⟩ := hentry he
    · exact ht.parent_lt he hp
    · exact hparent p hp
  · intro k e he hp
    obtain ⟨-, he⟩ | ⟨rfl, rfl⟩ := hentry he
    · exact ht.frame_of_root he hp
    · exact hroot hp
  · intro k e he hkind
    obtain ⟨-, he⟩ | ⟨rfl, rfl⟩ := hentry he
    · exact ht.pool_own he hkind
    · cases s with
      | rebound v => exact absurd rfl hkind
      | frame f | stepping v rest => rfl
  · intro k e p he hkind hp
    obtain ⟨hk, he⟩ | ⟨rfl, rfl⟩ := hentry he
    · rw [hpool (Nat.lt_trans (ht.parent_lt he hp) hk)]
      exact ht.pool_parent he hkind hp
    · rw [hpool (hparent p hp)]
      cases s with
      | rebound v => cases hp; rfl
      | frame f | stepping v rest => cases hkind

/-- Entries with the same outlines keep the invariant. -/
theorem of_outline (ht : Nested t)
    (h : ∀ k : ℕ, t'.entries[k]?.map ScopeEntry.outline = t.entries[k]?.map ScopeEntry.outline) :
    Nested t' := by
  have hentry : ∀ {k : ℕ} {e' : ScopeEntry}, t'.entries[k]? = some e' → ∃ e : ScopeEntry,
      t.entries[k]? = some e ∧ e.parent = e'.parent ∧ e.pool = e'.pool ∧
        e.scope.kind = e'.scope.kind := by
    intro k e' he'
    have hk := h k
    rw [he'] at hk
    obtain ⟨e, he, houtline⟩ := Option.map_eq_some_iff.1 hk.symm
    rw [ScopeEntry.outline, ScopeEntry.outline, Prod.mk.injEq, Prod.mk.injEq] at houtline
    exact ⟨e, he, houtline⟩
  have hpool : ∀ k, t'.pool k = t.pool k := by
    intro k
    have hk := h k
    rw [pool, pool]
    generalize t.entries[k]? = e at hk ⊢
    generalize t'.entries[k]? = e' at hk ⊢
    cases e with
    | none => rw [Option.map_eq_none_iff.1 hk]
    | some e =>
      obtain ⟨e', rfl, houtline⟩ := Option.map_eq_some_iff.1 hk
      exact congrArg (·.2.1) houtline
  constructor
  · intro k e' p he' hp
    obtain ⟨e, he, hparent, -, -⟩ := hentry he'
    exact ht.parent_lt he (hparent.trans hp)
  · intro k e' he' hp
    obtain ⟨e, he, hparent, -, hkind⟩ := hentry he'
    exact hkind ▸ ht.frame_of_root he (hparent.trans hp)
  · intro k e' he' hk
    obtain ⟨e, he, -, hpool, hkind⟩ := hentry he'
    exact hpool ▸ ht.pool_own he (hkind ▸ hk)
  · intro k e' p he' hk hp
    obtain ⟨e, he, hparent, hpool', hkind⟩ := hentry he'
    rw [hpool, ← hpool']
    exact ht.pool_parent he (hkind.trans hk) (hparent.trans hp)

/-- A scope may change if it stays of its kind. -/
theorem modify (ht : Nested t) {f : Scope → Scope}
    (hf : ∀ e, t.entries[n]? = some e → (f e.scope).kind = e.scope.kind) :
    Nested (t.modify n f) := by
  refine ht.of_outline fun k => ?_
  rw [getElem?_modify]
  split
  · next hk =>
    subst hk
    rw [Option.map_map]
    refine Option.map_congr fun e he => ?_
    simp [ScopeEntry.outline, hf e he]
  · rfl

theorem pop (ht : Nested t) : Nested t.pop := by
  have hpool : ∀ {k p e}, t.pop.entries[k]? = some e → p < k → t.pop.pool p = t.pool p := by
    intro k p e he hp
    obtain ⟨hk, -⟩ := List.getElem?_eq_some_iff.1 he
    rw [ScopeTree.pop, List.length_dropLast] at hk
    rw [pool, pool, ScopeTree.pop, List.getElem?_dropLast, if_pos (Nat.lt_trans hp hk)]
  exact {
    parent_lt := fun he => ht.parent_lt (getElem?_pop he)
    frame_of_root := fun he => ht.frame_of_root (getElem?_pop he)
    pool_own := fun he => ht.pool_own (getElem?_pop he)
    pool_parent := fun he hkind hp =>
      (ht.pool_parent (getElem?_pop he) hkind hp).trans
        (hpool he (ht.parent_lt (getElem?_pop he) hp)).symm }

theorem modifyFrame (ht : Nested t) (k : ℕ) (g : Frame → Frame) : Nested (t.modifyFrame k g) := by
  rw [ScopeTree.modifyFrame]
  by_cases hk : k < t.entries.length
  · obtain ⟨n, f, outer, h⟩ := ht.exists_stack hk
    obtain ⟨e, he, hf⟩ := h.getElem? List.mem_cons_self
    rw [ht.frameOf?_eq h]
    refine ht.modify fun e' he' => ?_
    obtain rfl : e = e' := Option.some.inj (he.symm.trans he')
    rw [hf]
    rfl
  · rw [frameOf?, ask, List.getElem?_eq_none (Nat.le_of_not_lt hk)]
    exact ht

theorem advance (ht : Nested t) (k : ℕ) : Nested (t.advance k).1 := by
  rw [ScopeTree.advance]
  split
  · next parent pool v w rest he =>
    have hmodify : Nested (t.modify k fun _ => .stepping w rest) := ht.modify fun e he' => by
      rw [he] at he'
      cases he'
      rfl
    exact hmodify
  · exact ht

end Nested

/-- **Live scopes are nested.** -/
theorem Live.isNested (ht : Live t) : Nested t := by
  induction ht with
  | empty => exact ⟨nofun, nofun, nofun, nofun⟩
  | root ht f ih => exact ih.push nofun fun _ => rfl
  | nested ht hp s ih => exact ih.push (fun q hq => Option.some.inj hq ▸ hp) nofun
  | pop ht ih => exact ih.pop
  | write ht k w ih =>
    rw [write_eq_modifyFrame]
    exact ih.modifyFrame k w.apply
  | advance ht k ih => exact ih.advance k

end ScopeTree

end Enablement
