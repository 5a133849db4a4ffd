import Enablement.Proofs.Scope.Nesting
/-!
# Scope trees — one stack of frames

Named variables, resolvers and the permission to activate contributors behave as if the frames that
enclose a scope were one stack. Reads take what the innermost frame has that has anything, resolvers
are asked frame by frame, and changes go to the innermost frame alone, whatever scope they are sent
by.
-/

namespace Enablement

namespace Context

variable {name : String} {args : List Value} {rs : List Resolver}

/-- Resolvers are asked one after another, up to the first that gives an answer or a fault. -/
inductive FirstAnswer (name : String) (args : List Value) :
    List Resolver → Except Fault (Option Value) → Prop
  | none {rs : List Resolver} (declined : ∀ r ∈ rs, r name args = .ok none) :
    FirstAnswer name args rs (.ok none)
  | first (before after : List Resolver) {r : Resolver}
    (declined : ∀ q ∈ before, q name args = .ok none) (answered : r name args ≠ .ok none) :
    FirstAnswer name args (before ++ r :: after) (r name args)

theorem firstAnswer_askAll (name : String) (args : List Value) (rs : List Resolver) :
    FirstAnswer name args rs (askAll name args rs) := by
  induction rs with
  | nil => exact .none nofun
  | cons r rs ih =>
    rw [askAll]
    split
    · next hr =>
      generalize askAll name args rs = a at ih
      cases ih with
      | none declined => exact .none (List.forall_mem_cons.2 ⟨hr, declined⟩)
      | @first before after q declined answered =>
        exact .first (r :: before) after (List.forall_mem_cons.2 ⟨hr, declined⟩) answered
    · next hr => exact .first [] rs nofun fun h => hr h

theorem askAll_append (name : String) (args : List Value) (rs rs' : List Resolver) :
    askAll name args (rs ++ rs') =
      match askAll name args rs with
      | .ok none => askAll name args rs'
      | answer => answer := by
  induction rs with
  | nil => rfl
  | cons r rs ih =>
    rw [List.cons_append, askAll, askAll]
    split
    · exact ih
    · next hr =>
      split
      · next h => exact absurd h hr
      · rfl

/-- The frames of a context, the innermost first. -/
def frames (c : Context) : List Frame :=
  c.filterMap fun s =>
    match s with
    | .frame f => some f
    | _ => none

theorem frames_frame (f : Frame) (c : Context) : frames (.frame f :: c) = f :: frames c := rfl

theorem frames_of_kind_ne {s : Scope} (hs : s.kind ≠ .frame) (c : Context) :
    frames (s :: c) = frames c := by
  cases s with
  | frame f => exact absurd rfl hs
  | rebound v | stepping v rest => rfl

theorem binding?_eq (name : String) (c : Context) :
    binding? name c = (frames c).findSome? fun f => f.bindings.find? name := by
  induction c with
  | nil => rfl
  | cons s c ih =>
    cases s with
    | frame f =>
      rw [binding?, frames_frame, List.findSome?_cons, ih]
      cases f.bindings.find? name <;> rfl
    | rebound v | stepping v rest => exact ih

theorem resolve_eq (name : String) (args : List Value) (c : Context) :
    resolve name args c = askAll name args ((frames c).flatMap (·.resolvers)) := by
  induction c with
  | nil => rfl
  | cons s c ih =>
    cases s with
    | frame f =>
      rw [resolve, frames_frame, List.flatMap_cons, askAll_append]
      cases askAll name args f.resolvers with
      | error fault => rfl
      | ok answer =>
        cases answer with
        | none => exact ih
        | some v => rfl
    | rebound v | stepping v rest => exact ih

theorem allowActivation_eq (c : Context) :
    allowActivation c = ((frames c).findSome? fun f => f.allowActivation).getD false := by
  induction c with
  | nil => rfl
  | cons s c ih =>
    cases s with
    | frame f =>
      rw [allowActivation, frames_frame, List.findSome?_cons, ih]
      cases f.allowActivation <;> rfl
    | rebound v | stepping v rest => exact ih

end Context

namespace ScopeTree

variable {t t' : ScopeTree} {k m n p : ℕ} {e : ScopeEntry} {f g : Frame}
variable {o : Option ℕ} {frames frames' outer : List (ℕ × Frame)}

/-! ## Reads -/

namespace Nested

variable (ht : Nested t) (h : Stack t (some k) frames)
include ht h

/-- A named variable is bound by the innermost frame that binds it. -/
theorem binding?_eq (name : String) :
    t.binding? k name = frames.findSome? fun e => e.2.bindings.find? name := by
  rw [binding?, ht.ask_eq_foldr _ _ h]
  clear h
  induction frames with
  | nil => rfl
  | cons e frames ih =>
    rw [List.foldr_cons, ih, List.findSome?_cons]
    cases e.2.bindings.find? name <;> rfl

/-- The permission is what the innermost frame says that says anything. -/
theorem allowActivation_eq :
    t.allowActivation k = (frames.findSome? fun e => e.2.allowActivation).getD false := by
  rw [allowActivation, ht.ask_eq_foldr _ _ h]
  clear h
  induction frames with
  | nil => rfl
  | cons e frames ih =>
    rw [List.foldr_cons, ih, List.findSome?_cons]
    cases e.2.allowActivation <;> rfl

/-- The resolvers of the frames are asked one after another, the innermost frame first. -/
theorem resolve_eq (name : String) (args : List Value) :
    t.resolve k name args = Context.askAll name args (frames.flatMap (·.2.resolvers)) := by
  rw [resolve, ht.ask_eq_foldr _ _ h]
  clear h
  induction frames with
  | nil => rfl
  | cons e frames ih =>
    rw [List.foldr_cons, List.flatMap_cons, Context.askAll_append]
    cases Context.askAll name args e.2.resolvers with
    | error fault => rfl
    | ok answer =>
      cases answer with
      | none => exact ih
      | some v => rfl

end Nested

/-! ## Changes -/

namespace Stack

/-- A scope has one stack. -/
theorem unique (h : Stack t o frames) (h' : Stack t o frames') : frames = frames' := by
  induction h generalizing frames' with
  | outside => cases h'; rfl
  | @frame k e f frames he hf outer ih =>
    cases h' with
    | frame he' hf' outer' =>
      obtain rfl := Option.some.inj (he.symm.trans he')
      cases hf.symm.trans hf'
      rw [ih outer']
    | other he' hf' outer' =>
      obtain rfl := Option.some.inj (he.symm.trans he')
      exact absurd (hf ▸ rfl) hf'
  | @other k e frames he hf outer ih =>
    cases h' with
    | frame he' hf' outer' =>
      obtain rfl := Option.some.inj (he.symm.trans he')
      exact absurd (hf' ▸ rfl) hf
    | other he' hf' outer' =>
      obtain rfl := Option.some.inj (he.symm.trans he')
      exact ih outer'

/-- The numbers of a stack go down. -/
theorem sorted (ht : Nested t) (h : Stack t o frames) :
    frames.Pairwise (fun a b => b.1 < a.1) := by
  -- the frames that a parent is enclosed by have smaller numbers than the scope
  have hbelow : ∀ {k : ℕ} {e : ScopeEntry} {frames : List (ℕ × Frame)},
      t.entries[k]? = some e → Stack t e.parent frames →
      (∀ p, e.parent = some p → ∀ a ∈ frames, a.1 ≤ p) → ∀ a ∈ frames, a.1 < k := by
    intro k e frames he outer hle a ha
    cases hp : e.parent with
    | none => rw [hp] at outer; cases outer; cases ha
    | some p => exact Nat.lt_of_le_of_lt (hle p hp a ha) (ht.parent_lt he hp)
  suffices hle : (∀ k, o = some k → ∀ a ∈ frames, a.1 ≤ k) ∧
      frames.Pairwise fun a b => b.1 < a.1 from hle.2
  induction h with
  | outside => exact ⟨nofun, .nil⟩
  | @frame k e f frames he hf outer ih =>
    have hlt := hbelow he outer ih.1
    refine ⟨?_, .cons hlt ih.2⟩
    rintro _ ⟨⟩
    exact List.forall_mem_cons.2 ⟨Nat.le_refl k, fun a ha => Nat.le_of_lt (hlt a ha)⟩
  | @other k e frames he hf outer ih =>
    refine ⟨?_, ih.2⟩
    rintro _ ⟨⟩
    exact fun a ha => Nat.le_of_lt (hbelow he outer ih.1 a ha)

/-- A frame that changes is changed in every stack that it is in. -/
theorem modify (h : Stack t o frames) (hn : t.entries[n]? = some e) (hf : e.scope = .frame f)
    (g : Frame) : Stack (t.modify n fun _ => .frame g) o
      (frames.map fun e => if e.1 = n then (n, g) else e) := by
  induction h with
  | outside => exact .outside
  | @frame k e' f' frames he' hf' outer ih =>
    rw [List.map_cons]
    by_cases hk : k = n
    · subst hk
      obtain rfl := Option.some.inj (hn.symm.trans he')
      rw [if_pos rfl]
      refine .frame (e := { e with scope := .frame g }) ?_ rfl ih
      rw [getElem?_modify, if_pos rfl, hn, Option.map_some]
    · rw [if_neg hk]
      refine .frame ?_ hf' ih
      rw [getElem?_modify, if_neg (Ne.symm hk), he']
  | @other k e' frames he' hf' outer ih =>
    refine .other ?_ hf' ih
    rw [getElem?_modify, if_neg, he']
    rintro rfl
    obtain rfl := Option.some.inj (hn.symm.trans he')
    exact hf' (hf ▸ rfl)

end Stack

/-- The default variable of a context is that of its innermost scope. -/
theorem defaultVariable_context (t : ScopeTree) (k : ℕ) :
    Context.defaultVariable (t.context k) =
      t.entries[k]?.elim .null fun e => e.scope.defaultVariable := by
  rw [context]
  cases t.entries[k]? with
  | none => rfl
  | some e =>
    simp only [Option.elim_some]
    split
    · rfl
    · split <;> rfl

section Write

variable (ht : Nested t) (h : Stack t (some k) ((n, f) :: outer))
include ht h

/-- What is said to a scope changes the innermost frame. -/
theorem write_eq (w : Write) : t.write k w = t.modify n fun _ => .frame (w.apply f) := by
  rw [write_eq_modifyFrame, modifyFrame, ht.frameOf?_eq h]

theorem stack_write (w : Write) (h' : Stack t o frames) :
    Stack (t.write k w) o (frames.map fun e => if e.1 = n then (n, w.apply f) else e) := by
  obtain ⟨e, he, hf⟩ := h.getElem? List.mem_cons_self
  rw [write_eq ht h]
  exact h'.modify he hf _

/-- The frames further out stay as they are. -/
theorem stack_write_self (w : Write) :
    Stack (t.write k w) (some k) ((n, w.apply f) :: outer) := by
  have hwrite := stack_write ht h w h
  have houter : (outer.map fun e => if e.1 = n then (n, w.apply f) else e) = outer := by
    refine (List.map_congr_left fun e he => ?_).trans (List.map_id outer)
    have hlt := (List.pairwise_cons.1 (h.sorted ht)).1 e he
    rw [if_neg (Nat.ne_of_lt hlt), id]
  rwa [List.map_cons, if_pos rfl, houter] at hwrite

/-- What is said to a scope changes no default variable. -/
theorem defaultVariable_write (w : Write) (m : ℕ) :
    Context.defaultVariable ((t.write k w).context m) =
      Context.defaultVariable (t.context m) := by
  obtain ⟨e, he, hf⟩ := h.getElem? List.mem_cons_self
  rw [defaultVariable_context, defaultVariable_context, write_eq ht h, getElem?_modify]
  split
  · next hm =>
    subst hm
    rw [he, Option.map_some, Option.elim_some, Option.elim_some, hf]
    cases w <;> rfl
  · rfl

end Write

/-! ## The stack of frames -/

/-- **Live scopes behave as one stack of frames**, however they are nested and whatever was said to
them before. Some frame encloses a scope as the innermost one. A variable is bound by the innermost
frame that binds it, the permission is that of the innermost frame that has one, and resolvers are
asked frame by frame up to the first answer or fault. What is said to the scope changes the
innermost frame and no other entry: it is changed in every stack that it is in, and no default
variable is. What is removed is what the innermost frame had, and what is seen then is what the
frames further out bind. -/
theorem live_scopes_are_one_stack (ht : Live t) (hk : k < t.entries.length) :
    ∃ n f outer, Stack t (some k) ((n, f) :: outer) ∧
      ((∀ name, t.binding? k name =
          ((n, f) :: outer).findSome? fun e => e.2.bindings.find? name) ∧
        t.allowActivation k =
          (((n, f) :: outer).findSome? fun e => e.2.allowActivation).getD false ∧
        ∀ name args, Context.FirstAnswer name args (((n, f) :: outer).flatMap (·.2.resolvers))
          (t.resolve k name args)) ∧
      (∀ w, Live (t.write k w) ∧
        (∀ m, (t.write k w).entries[m]? =
          if n = m then t.entries[m]?.map fun e => { e with scope := .frame (w.apply f) }
          else t.entries[m]?) ∧
        Stack (t.write k w) (some k) ((n, w.apply f) :: outer) ∧
        (∀ m frames, Stack t (some m) frames → Stack (t.write k w) (some m)
          (frames.map fun e => if e.1 = n then (n, w.apply f) else e)) ∧
        ∀ m, Context.defaultVariable ((t.write k w).context m) =
          Context.defaultVariable (t.context m)) ∧
      ∀ name, (t.removeVariable k name).2 = f.bindings.find? name ∧
        (t.removeVariable k name).1.binding? k name =
          outer.findSome? fun e => e.2.bindings.find? name := by
  have hnested := ht.isNested
  obtain ⟨n, f, outer, h⟩ := hnested.exists_stack hk
  refine ⟨n, f, outer, h,
    ⟨hnested.binding?_eq h, hnested.allowActivation_eq h, fun name args => ?_⟩,
    fun w => ⟨ht.write k w, fun m => ?_, stack_write_self hnested h w,
      fun m frames => stack_write hnested h w, defaultVariable_write hnested h w⟩,
    fun name => ⟨?_, ?_⟩⟩
  · rw [hnested.resolve_eq h]
    exact Context.firstAnswer_askAll ..
  · rw [write_eq hnested h, getElem?_modify]
  · rw [removeVariable, hnested.frameOf?_eq h]
    rfl
  · have hafter := (ht.write k (.unbind name)).isNested.binding?_eq
      (stack_write_self hnested h (.unbind name)) name
    rwa [List.findSome?_cons, Write.apply, NameMap.find?_erase_self] at hafter

/-- A frame in a frame, which shadows a variable, and in it two scopes that only rebind the default
variable: through the innermost of them the variable is removed from the inner frame, and that of
the outer frame is seen again. -/
theorem live_scopes_are_one_stack_shadowed :
    let outer : Frame := { bindings := .ofList [("x", .string "outer")] }
    let inner : Frame := { bindings := .ofList [("x", .string "inner")] }
    let t := ((((({} : ScopeTree).push none (.frame outer)).1.push (some 0) (.frame inner)).1.push
      (some 1) (.stepping .null [])).1.push (some 2) (.rebound .null)).1
    (Live t ∧ 3 < t.entries.length) ∧ t.binding? 3 "x" = some (.string "inner") ∧
      (t.removeVariable 3 "x").2 = some (.string "inner") ∧
      (t.removeVariable 3 "x").1.binding? 3 "x" = some (.string "outer") := by
  intro outer inner t
  have hlive : Live t := (((Live.empty.root outer).nested Nat.one_pos _).nested
    (Nat.lt_succ_self 1) _).nested (Nat.lt_succ_self 2) _
  have hk : 3 < t.entries.length := Nat.lt_succ_self 3
  have hstack : Stack t (some 3) [(1, inner), (0, outer)] :=
    .other rfl nofun (.other rfl nofun (.frame rfl rfl (.frame rfl rfl .outside)))
  obtain ⟨n, f, rest, h, ⟨hbinding, -, -⟩, -, hremove⟩ := live_scopes_are_one_stack hlive hk
  cases h.unique hstack
  exact ⟨⟨hlive, hk⟩, hbinding "x", (hremove "x").1, (hremove "x").2⟩

/-! ## What evaluation sees

A context is the list of the scopes that a scope is nested in. It gives the answers that the scope
itself gives. -/

/-- The scopes from a nested one outwards. -/
theorem Nested.context_eq (ht : Nested t) (he : t.entries[k]? = some e) :
    t.context k = e.scope :: e.parent.elim [] t.context := by
  rw [context, he]
  cases hp : e.parent with
  | none => simp only [hp, Option.elim_none]
  | some p => simp only [hp, if_pos (ht.parent_lt he hp), Option.elim_some]

/-- The frames of a context are those of the stack. -/
theorem Stack.frames_context (ht : Nested t) (h : Stack t (some k) frames) :
    (t.context k).frames = frames.map Prod.snd := by
  have hstack : ∀ {o : Option ℕ} {frames}, Stack t o frames →
      Context.frames (o.elim [] t.context) = frames.map Prod.snd := by
    intro o frames h
    induction h with
    | outside => rfl
    | frame he hf outer ih =>
      rw [Option.elim_some, ht.context_eq he, hf, Context.frames_frame, ih, List.map_cons]
    | @other k e frames he hf outer ih =>
      rw [Option.elim_some, ht.context_eq he, Context.frames_of_kind_ne hf, ih]
  exact hstack h

/-- **Evaluation in a scope reads what the scope answers.** -/
theorem Live.context_reads (ht : Live t) (hk : k < t.entries.length) :
    (∀ name, Context.binding? name (t.context k) = t.binding? k name) ∧
      (∀ name args, Context.resolve name args (t.context k) = t.resolve k name args) ∧
      Context.allowActivation (t.context k) = t.allowActivation k := by
  have hnested := ht.isNested
  obtain ⟨n, f, outer, h⟩ := hnested.exists_stack hk
  have hframes := h.frames_context hnested
  refine ⟨fun name => ?_, fun name args => ?_, ?_⟩
  · rw [Context.binding?_eq, hframes, hnested.binding?_eq h, List.findSome?_map]
    rfl
  · rw [Context.resolve_eq, hframes, hnested.resolve_eq h, List.flatMap_map]
  · rw [Context.allowActivation_eq, hframes, hnested.allowActivation_eq h, List.findSome?_map]
    rfl

end ScopeTree

end Enablement
