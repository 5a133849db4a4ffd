import Enablement.Engine.Basic
/-!
# Acts — how they run, and what they keep

An act is a function of the engine, so running a composed act is running its parts one after
another (`bind_apply`). A property of engines is kept by an act when the engine it leaves behind has
it again, however the act ends; an act composed of acts that keep a property keeps it
(`Keeps.bind`).
-/

namespace Enablement

namespace Act

variable {α β : Type} {P : Engine → Prop}

/-! ## Running -/

@[simp] theorem pure_apply (a : α) (e : Engine) : (Pure.pure a : Act α) e = (.ok a, e) := rfl

@[simp] theorem ofExcept_apply (r : Except Fault α) (e : Engine) : ofExcept r e = (r, e) := rfl

@[simp] theorem read_apply (f : Engine → α) (e : Engine) : read f e = (.ok (f e), e) := rfl

@[simp] theorem change_apply (f : Engine → Engine) (e : Engine) : change f e = (.ok (), f e) := rfl

/-- Running two acts one after another. -/
theorem bind_apply (x : Act α) (f : α → Act β) (e : Engine) :
    (x >>= f) e = match x e with
      | (.ok a, e') => f a e'
      | (.error g, e') => (.error g, e') := rfl

/-- An act that ends with a value goes on with it. -/
theorem bind_of_ok {x : Act α} {a : α} {e e' : Engine} (h : x e = (.ok a, e'))
    (f : α → Act β) : (x >>= f) e = f a e' := by
  rw [bind_apply, h]

/-- An act that ends with a fault ends what it is part of. -/
theorem bind_of_error {x : Act α} {g : Fault} {e e' : Engine} (h : x e = (.error g, e'))
    (f : α → Act β) : (x >>= f) e = (.error g, e') := by
  rw [bind_apply, h]

/-- What an act is part of goes on from how the act ends. -/
theorem bind_congr {x y : Act α} {e e' : Engine} (h : x e = y e') (f : α → Act β) :
    (x >>= f) e = (y >>= f) e' := by
  rw [bind_apply, bind_apply, h]

@[simp] theorem read_bind (f : Engine → α) (g : α → Act β) (e : Engine) :
    (read f >>= g) e = g (f e) e := rfl

@[simp] theorem change_bind (f : Engine → Engine) (g : Unit → Act β) (e : Engine) :
    (change f >>= g) e = g () (f e) := rfl

/-! ## Keeping a property -/

/-- The engine that an act leaves behind has a property if the engine before had it. -/
def Keeps (P : Engine → Prop) (x : Act α) : Prop := ∀ e, P e → P (x e).2

theorem Keeps.pure (a : α) : Keeps P (Pure.pure a : Act α) := fun _ h => h

theorem Keeps.fail (f : Fault) : Keeps P (Act.fail f : Act α) := fun _ h => h

theorem Keeps.ofExcept (r : Except Fault α) : Keeps P (Act.ofExcept r) := fun _ h => h

theorem Keeps.read (f : Engine → α) : Keeps P (Act.read f) := fun _ h => h

theorem Keeps.change {f : Engine → Engine} (hf : ∀ e, P e → P (f e)) : Keeps P (Act.change f) :=
  hf

/-- Acts keep a property one after another, if the second one does after what the first one can end
with. -/
theorem Keeps.bind_of_results {x : Act α} {f : α → Act β} (hx : Keeps P x)
    (hf : ∀ e a, P e → (x e).1 = .ok a → Keeps P (f a)) : Keeps P (x >>= f) := by
  intro e he
  have hxe := hx e he
  have hfe := fun a => hf e a he
  rw [bind_apply]
  rcases h : x e with ⟨r, e'⟩
  rw [h] at hxe hfe
  cases r with
  | ok a => exact hfe a rfl e' hxe
  | error g => exact hxe

/-- Acts that keep a property keep it one after another. -/
theorem Keeps.bind {x : Act α} {f : α → Act β} (hx : Keeps P x) (hf : ∀ a, Keeps P (f a)) :
    Keeps P (x >>= f) :=
  hx.bind_of_results fun _ a _ _ => hf a

theorem Keeps.ite {c : Prop} [Decidable c] {x y : Act α} (hx : Keeps P x) (hy : Keeps P y) :
    Keeps P (if c then x else y) := by
  split
  · exact hx
  · exact hy

/-! ## Doing the same -/

/-- Two acts end alike and leave the same engine behind, wherever a property holds. -/
def SameOn (P : Engine → Prop) (x y : Act α) : Prop := ∀ e, P e → x e = y e

theorem SameOn.refl (x : Act α) : SameOn P x x := fun _ _ => rfl

/-- Acts do the same one after another if the first ones do and keep the property, and the second
ones do after what the first ones can end with. -/
theorem SameOn.bind_of_results {x y : Act α} {f g : α → Act β} (hxy : SameOn P x y)
    (hx : Keeps P x) (hfg : ∀ e a, P e → (x e).1 = .ok a → SameOn P (f a) (g a)) :
    SameOn P (x >>= f) (y >>= g) := by
  intro e he
  have hxe := hx e he
  have hfge := fun a => hfg e a he
  rw [bind_apply, bind_apply, ← hxy e he]
  rcases h : x e with ⟨r, e'⟩
  rw [h] at hxe hfge
  cases r with
  | ok a => exact hfge a rfl e' hxe
  | error f => rfl

theorem SameOn.bind {x y : Act α} {f g : α → Act β} (hxy : SameOn P x y) (hx : Keeps P x)
    (hfg : ∀ a, SameOn P (f a) (g a)) : SameOn P (x >>= f) (y >>= g) :=
  hxy.bind_of_results hx fun _ a _ _ => hfg a

theorem SameOn.ite {c : Prop} [Decidable c] {x x' y y' : Act α} (hx : SameOn P x x')
    (hy : SameOn P y y') : SameOn P (if c then x else y) (if c then x' else y') := by
  split
  · exact hx
  · exact hy

end Act

end Enablement
