import Enablement.Proofs.Evaluation.Joining
import Enablement.Proofs.Evaluation.Later
/-!
# Evaluation — how outcomes evolve

An outcome that is open may be settled later, and a settled one stays. The connectives respect this,
so a conjunction or disjunction that stops at its first decisive part does too, although it may stop
earlier the next time. Two acts evolve one into the other (`Act.Evolves`) if the second one, run at
any later time, ends with what the result of the first one may become, or with a fault. What is
composed of acts that evolve evolves.
-/

namespace Enablement

/-! ## Outcomes -/

namespace Truth

/-- What an outcome may be at a later time: itself, or anything if it was left open. -/
def MayBecome (t u : Truth) : Prop := t = .notLoaded ∨ t = u

instance (t u : Truth) : Decidable (t.MayBecome u) := inferInstanceAs (Decidable (_ ∨ _))

theorem MayBecome.refl (t : Truth) : t.MayBecome t := .inr rfl

theorem MayBecome.not {t u : Truth} (h : t.MayBecome u) : t.not.MayBecome u.not := by
  rcases h with rfl | rfl
  · exact .inl rfl
  · exact .refl _

end Truth

namespace Connective

/-- The connectives go by what their operands may become. -/
theorem join_mayBecome (o : Connective) {t u a b : Truth} (ht : t.MayBecome u)
    (ha : a.MayBecome b) : (o.join t a).MayBecome (o.join u b) := by
  rcases ht with rfl | rfl
  · rcases ha with rfl | rfl
    · cases o <;> exact .inl rfl
    · cases o <;> cases a <;> cases u <;> decide
  · rcases ha with rfl | rfl
    · cases o <;> cases t <;> cases b <;> decide
    · exact .refl _

/-- While one operand is open, nothing but the decisive outcome can come of it. -/
theorem join_notLoaded (o : Connective) (a : Truth) : (o.join .notLoaded a).MayBecome o.stop := by
  cases o <;> cases a <;> decide

end Connective

/-! ## Acts -/

namespace Act

open Engine

variable {α β γ δ : Type} {ρ : α → β → Prop} {σ : γ → δ → Prop} {x : Act α} {y : Act β}

/-- Both acts lead to later engines, and whenever the second one is run after the first one, their
results are in a relation, unless one of them fails. -/
structure Evolves (ρ : α → β → Prop) (x : Act α) (y : Act β) : Prop where
  first : ∀ e₀, Keeps (Since e₀) x
  second : ∀ e₀, Keeps (Since e₀) y
  becomes : ∀ {e e' a b}, e.Orderly → e'.Orderly → (x e).2.Later e' →
    (x e).1 = .ok a → (y e').1 = .ok b → ρ a b

namespace Evolves

theorem pure {a : α} {b : β} (h : ρ a b) : Evolves ρ (Pure.pure a) (Pure.pure b) where
  first _ := .pure a
  second _ := .pure b
  becomes _ _ _ ha hb := by
    cases ha
    cases hb
    exact h

/-- Nothing is said of what comes after a fault. -/
theorem fail_left (f : Fault) (h : ∀ e₀, Keeps (Since e₀) y) : Evolves ρ (fail f) y where
  first _ := .fail f
  second := h
  becomes _ _ _ ha _ := nomatch ha

theorem fail_right (f : Fault) (h : ∀ e₀, Keeps (Since e₀) x) : Evolves ρ x (fail f) where
  first := h
  second _ := .fail f
  becomes _ _ _ _ hb := nomatch hb

/-- An open outcome evolves into any. -/
theorem notLoaded {y : Act Truth} (h : ∀ e₀, Keeps (Since e₀) y) :
    Evolves Truth.MayBecome (Pure.pure .notLoaded) y where
  first _ := .pure _
  second := h
  becomes _ _ _ ha _ := .inl (Except.ok.inj ha).symm

/-- What is read off the platform moves on with it. -/
theorem platform : Evolves Platform.Onward (read (·.platform)) (read (·.platform)) where
  first _ := .read _
  second _ := .read _
  becomes _ _ hlater ha hb := by
    cases ha
    cases hb
    exact hlater.platform

theorem ofExcept {r : Except Fault α} {r' : Except Fault β}
    (h : ∀ a b, r = .ok a → r' = .ok b → ρ a b) : Evolves ρ (ofExcept r) (ofExcept r') where
  first _ := .ofExcept r
  second _ := .ofExcept r'
  becomes _ _ _ ha hb := h _ _ ha hb

/-- **Acts one after another evolve if the parts do.** The engine of the second run comes later than
all that the first run has led to, so it does so at each of the parts. -/
theorem bind_of_keeps {f : α → Act γ} {g : β → Act δ} (h : Evolves ρ x y)
    (hf : ∀ a e₀, Keeps (Since e₀) (f a)) (hg : ∀ b e₀, Keeps (Since e₀) (g b))
    (hfg : ∀ a b, ρ a b → Evolves σ (f a) (g b)) : Evolves σ (x >>= f) (y >>= g) where
  first e₀ := (h.first e₀).bind fun a => hf a e₀
  second e₀ := (h.second e₀).bind fun b => hg b e₀
  becomes {e e' c d} he he' hlater hc hd := by
    rw [bind_apply] at hlater hc
    rw [bind_apply] at hd
    have hx := h.first e e he.since
    have hy := h.second e' e' he'.since
    rcases hxe : x e with ⟨g | a, e₁⟩
    · rw [hxe] at hc
      cases hc
    · rcases hye : y e' with ⟨g | b, e₁'⟩
      · rw [hye] at hd
        cases hd
      · rw [hxe] at hlater hc hx
        rw [hye] at hd hy
        have hrest := hf a e₁ e₁ hx.orderly.since
        have hx' : (x e).2.Later e' := by
          rw [hxe]
          exact hrest.later.trans hlater
        have hab : ρ a b := h.becomes he he' hx' (by rw [hxe]) (by rw [hye])
        exact (hfg a b hab).becomes hx.orderly hy.orderly (hlater.trans hy.later) hc hd

/-- A reflexive relation between results says enough about what comes next. -/
theorem bind {ρ : α → α → Prop} {x y : Act α} {f : α → Act γ} {g : α → Act δ} (h : Evolves ρ x y)
    (hρ : ∀ a, ρ a a) (hfg : ∀ a b, ρ a b → Evolves σ (f a) (g b)) :
    Evolves σ (x >>= f) (y >>= g) :=
  h.bind_of_keeps (fun a => (hfg a a (hρ a)).first) (fun b => (hfg b b (hρ b)).second) hfg

/-- **A result that stays, unless it leaves the outcome open.** -/
theorem bind_open {ρ : α → α → Prop} {x y : Act α} {f g : α → Act Truth} (h : Evolves ρ x y)
    (hρ : ∀ a b, ρ a b → f a = Pure.pure .notLoaded ∨ a = b)
    (hfg : ∀ a, Evolves Truth.MayBecome (f a) (g a)) :
    Evolves Truth.MayBecome (x >>= f) (y >>= g) := by
  refine h.bind_of_keeps (fun a => (hfg a).first) (fun b => (hfg b).second) fun a b hab => ?_
  rcases hρ a b hab with hopen | rfl
  · rw [hopen]
    exact .notLoaded (hfg b).second
  · exact hfg a

end Evolves

/-! ## Outcomes one after another -/

variable {o : Connective}

/-- What is open stays so, or ends with the decisive outcome. -/
theorem joinUntil_notLoaded {xs : List (Act Truth)} {e : Engine} {t : Truth}
    (h : (joinUntil o .notLoaded xs e).1 = .ok t) : t.MayBecome o.stop := by
  induction xs generalizing e with
  | nil => exact .inl (Except.ok.inj h).symm
  | cons x xs ih =>
    rw [joinUntil, bind_apply] at h
    rcases hx : x e with ⟨f | a, e'⟩
    · rw [hx] at h
      cases h
    · rw [hx] at h
      dsimp only at h
      split at h
      · rename_i hstop
        rw [← Except.ok.inj h]
        exact .inr hstop
      · rename_i hstop
        rw [(o.join_notLoaded a).resolve_right hstop] at h
        exact ih h

/-- **Acts that evolve do so together**, although the second run may stop where the first one has
gone on: there the first one was open, and stays so. -/
theorem Evolves.joinUntil {xs ys : List (Act Truth)}
    (h : List.Forall₂ (Evolves Truth.MayBecome) xs ys) {t u : Truth} (htu : t.MayBecome u) :
    Evolves Truth.MayBecome (joinUntil o t xs) (joinUntil o u ys) := by
  induction h generalizing t u with
  | nil => exact .pure htu
  | cons hxy _ ih =>
    refine hxy.bind .refl fun a b hab => ?_
    have hjoin := o.join_mayBecome htu hab
    by_cases hstop : o.join t a = o.stop
    · -- what is decided in the first run is decided in the second one
      have hstop' : o.join u b = o.stop := by
        rw [hstop] at hjoin
        exact (hjoin.resolve_left o.stop_ne).symm
      rw [if_pos hstop, if_pos hstop']
      exact .pure hjoin
    · rw [if_neg hstop]
      by_cases hstop' : o.join u b = o.stop
      · rw [if_pos hstop', hstop']
        have hopen : o.join t a = .notLoaded :=
          hjoin.resolve_right fun heq => hstop (heq.trans hstop')
        rw [hopen]
        refine ⟨(ih (.refl _)).first, fun _ => .pure _, fun _ _ _ ha hb => ?_⟩
        rw [← Except.ok.inj hb]
        exact joinUntil_notLoaded ha
      · rw [if_neg hstop']
        exact ih hjoin

end Act

end Enablement
