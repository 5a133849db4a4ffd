import Enablement.Proofs.Registry.Reachable
/-!
# Registry — histories

What happens to an engine is a list of deeds: moves, and changes that the host makes to its services
or to the definitions. Nothing of it takes the journal, so the journal of an engine tells all that
has been done since the engine was made.
-/

namespace Enablement

namespace Engine

variable {e : Engine}

/-- What happens to an engine. -/
inductive Deed where
  /-- It is used. -/
  | move (m : Move)
  /-- The host changes its services or the definitions. -/
  | host (platform : Platform) (definitions : Definitions)

/-- The engine afterwards. -/
def Deed.perform : Deed → Engine → Engine
  | .move m, e => m.perform e
  | .host platform definitions, e => { e with platform, definitions }

/-- Whether it changes the registrations. -/
def Deed.isRegistryChange : Deed → Bool
  | .move m => m.isRegistryChange
  | .host _ _ => false

/-- The engine after a history. -/
def after (history : List Deed) (e : Engine) : Engine :=
  history.foldl (fun e deed => deed.perform e) e

@[simp] theorem after_append (history later : List Deed) (e : Engine) :
    after (history ++ later) e = after later (after history e) :=
  List.foldl_append

theorem Reachable.perform (h : e.Reachable) (deed : Deed) : (deed.perform e).Reachable := by
  cases deed with
  | move m => exact .move h m
  | host platform definitions => exact .host h platform definitions e.journal

/-- A history leads from a reachable engine to a reachable one. -/
theorem reachable_after (h : e.Reachable) (history : List Deed) : (after history e).Reachable := by
  induction history generalizing e with
  | nil => exact h
  | cons deed history ih => exact ih (h.perform deed)

end Engine

end Enablement
