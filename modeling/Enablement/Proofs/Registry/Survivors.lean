import Enablement.Proofs.Registry.History
/-!
# Registry — the testers that survive

A tester survives a history if its contributor is not removed after it has been added (`survivors`).
What is registered after any history are the survivors, by type and in the order in which they were
added, and nothing else in an engine keeps track of registrations that are gone; the options, the
handlers and the capacity of the cache stay as they were made (`stocked_after`).
-/

namespace Enablement

/-- A list that is not empty. -/
def nonempty? {α : Type} : List α → Option (List α)
  | [] => none
  | l => some l

@[simp] theorem getD_nonempty? {α : Type} (l : List α) : (nonempty? l).getD [] = l := by
  cases l <;> rfl

/-- What is left of a list of which something was left before. -/
theorem bind_nonempty?_filter {α : Type} (p : α → Bool) (l : List α) :
    (nonempty? l).bind (fun l => nonempty? (l.filter p)) = nonempty? (l.filter p) := by
  cases l <;> rfl

namespace Registry

variable {r r' : Registry} {ds : List Descriptor} {capacity : ℕ} {t contributor : String}

/-! ## What is registered -/

/-- The testers registered for each type are those of a list, in its order. -/
def Lists (r : Registry) (ds : List Descriptor) : Prop :=
  ∀ t, r.registered.find? t = nonempty? (ds.filter (·.typeName == t))

theorem Lists.registrations (h : r.Lists ds) (t : String) :
    r.registrations t = ds.filter (·.typeName == t) := by
  rw [Registry.registrations, h, getD_nonempty?]

/-- The list determines what is registered. -/
theorem Lists.registered_eq (h : r.Lists ds) (h' : r'.Lists ds) : r'.registered = r.registered :=
  NameMap.ext_find? fun t => (h' t).trans (h t).symm

theorem Lists.congr (h : r.Lists ds) (hr : r'.registered = r.registered) : r'.Lists ds := by
  intro t
  rw [hr, h]

theorem lists_empty (capacity : ℕ) : (empty capacity).Lists [] := fun _ => rfl

theorem Lists.register (h : r.Lists ds) (d : Descriptor) : (r.register d).Lists (ds ++ [d]) := by
  intro t
  rw [Registry.register, NameMap.find?_insert, List.filter_append]
  by_cases ht : t = d.typeName
  · rw [if_pos ht, h.registrations, ht]
    have hone : [d].filter (·.typeName == d.typeName) = [d] := by simp
    rw [hone]
    cases ds.filter (·.typeName == d.typeName) <;> rfl
  · have hnone : [d].filter (·.typeName == t) = [] := by simp [Ne.symm ht]
    rw [if_neg ht, h, hnone, List.append_nil]

/-- Testers are added behind those that are registered. -/
theorem Lists.add (h : r.Lists ds) (new : List Descriptor) : (r.add new).Lists (ds ++ new) := by
  have hfold : (new.foldl Registry.register r).Lists (ds ++ new) := by
    induction new generalizing r ds with
    | nil => rwa [List.append_nil]
    | cons d new ih =>
      have hd := ih (h.register d)
      rwa [List.append_assoc, List.singleton_append] at hd
  exact hfold

/-- The cache keeps its capacity. -/
theorem add_capacity (r : Registry) (new : List Descriptor) :
    (r.add new).cache.capacity = r.cache.capacity := by
  have hfold : (new.foldl Registry.register r).cache = r.cache := by
    induction new generalizing r with
    | nil => rfl
    | cons d new ih => exact ih (r.register d)
  rw [Registry.add, flush, hfold]
  rfl

theorem keepOthers_eq (contributor : String) (ds : List Descriptor) :
    keepOthers contributor ds = nonempty? (ds.filter (·.contributor != contributor)) := by
  rw [keepOthers]
  cases ds.filter (·.contributor != contributor) <;> rfl

/-- Removing a contributor leaves the testers of the others. -/
theorem Lists.removeContributor (h : r.Lists ds) (contributor : String) :
    (r.removeContributor contributor).Lists (ds.filter (·.contributor != contributor)) := by
  intro t
  have hfind : (r.removeContributor contributor).registered.find? t =
      (r.registered.find? t).bind (keepOthers contributor) :=
    NameMap.find?_filterMap _ r.registered t
  rw [hfind, h, funext (keepOthers_eq contributor), bind_nonempty?_filter, List.filter_comm]

/-- Counting what stands under each of several names counts everything that stands under one. -/
theorem sum_countP_filter (p : Descriptor → Bool) {names : List String} (hnames : names.Nodup)
    (hds : ∀ d ∈ ds, d.typeName ∈ names) :
    (names.map fun t => (ds.filter (·.typeName == t)).countP p).foldr (· + ·) 0 = ds.countP p := by
  induction names generalizing ds with
  | nil =>
    cases ds with
    | nil => rfl
    | cons d ds => cases hds d List.mem_cons_self
  | cons t names ih =>
    obtain ⟨hnot, hnames⟩ := List.nodup_cons.1 hnames
    -- what is of the other types is counted under the other names
    let others := ds.filter fun d => !(d.typeName == t)
    have hothers : ∀ d ∈ others, d.typeName ∈ names := by
      intro d hd
      obtain ⟨hd, hne⟩ := List.mem_filter.1 hd
      rcases List.mem_cons.1 (hds d hd) with heq | hmem
      · simp [heq] at hne
      · exact hmem
    have hsame : (names.map fun t' => (ds.filter (·.typeName == t')).countP p) =
        names.map fun t' => (others.filter (·.typeName == t')).countP p := by
      refine List.map_congr_left fun t' ht' => ?_
      have hne : t' ≠ t := fun heq => hnot (heq ▸ ht')
      rw [List.filter_filter]
      congr 1
      refine List.filter_congr fun d _ => ?_
      by_cases hd : d.typeName = t'
      · simp [hd, hne]
      · simp [hd]
    rw [List.map_cons, List.foldr_cons, hsame, ih hnames hothers]
    exact (List.countP_eq_countP_filter_add ds p (·.typeName == t)).symm

/-- **As many testers of a contributor are counted as the list has.** -/
theorem Lists.countOf (h : r.Lists ds) (contributor : String) :
    r.countOf contributor = ds.countP (·.contributor == contributor) := by
  -- under each type there is the part of the list that is of it, and no type is there twice
  have hkept : ∀ e ∈ r.registered.entries, e.2 = ds.filter (·.typeName == e.1) := by
    intro e he
    have hfind := NameMap.find?_of_mem_entries he
    rw [h] at hfind
    rw [← getD_nonempty? (ds.filter (·.typeName == e.1)), hfind, Option.getD_some]
  have hnames : ∀ d ∈ ds, d.typeName ∈ r.registered.names := by
    intro d hd
    have hmem : d ∈ ds.filter (·.typeName == d.typeName) := by simp [hd]
    cases hds : ds.filter (·.typeName == d.typeName) with
    | nil =>
      rw [hds] at hmem
      cases hmem
    | cons d' rest =>
      have hfind := h d.typeName
      rw [hds] at hfind
      exact NameMap.mem_names_of_find? hfind
  have hmap : r.registered.entries.map (fun e => e.2.countP (·.contributor == contributor)) =
      r.registered.names.map fun t =>
        (ds.filter (·.typeName == t)).countP (·.contributor == contributor) := by
    rw [NameMap.names, List.map_map]
    exact List.map_congr_left fun e he => by rw [hkept e he, Function.comp_apply]
  rw [Registry.countOf, hmap, sum_countP_filter _ (NameMap.nodup_names _) hnames]

end Registry

namespace Engine

open Registry

variable {e e₀ : Engine} {platform : Platform} {options : Options} {handlers : List Handler}
  {ds : List Descriptor}

/-! ## Survivors -/

/-- The testers that it adds. -/
def Deed.added : Deed → List Descriptor
  | .move (.addTesters ds) => ds
  | _ => []

/-- Whether it removes the testers of a contributor. -/
def Deed.removes (contributor : String) : Deed → Bool
  | .move (.removeContributor removed) => removed == contributor
  | _ => false

/-- The testers that are added in the course of a history and survive it: their contributors are not
removed after that. -/
def survivors : List Deed → List Descriptor
  | [] => []
  | deed :: later =>
    deed.added.filter (fun d => !later.any (·.removes d.contributor)) ++ survivors later

/-- Of the survivors of a history, those survive what comes later whose contributors are not removed
in it. -/
theorem survivors_append (history later : List Deed) :
    survivors (history ++ later) =
      (survivors history).filter (fun d => !later.any (·.removes d.contributor)) ++
        survivors later := by
  induction history with
  | nil => rfl
  | cons deed history ih =>
    have hboth : deed.added.filter (fun d => !(history ++ later).any (·.removes d.contributor)) =
        (deed.added.filter fun d => !history.any (·.removes d.contributor)).filter
          fun d => !later.any (·.removes d.contributor) := by
      rw [List.filter_filter]
      refine List.filter_congr fun d _ => ?_
      rw [List.any_append, Bool.not_or, Bool.and_comm]
    rw [List.cons_append, survivors, survivors, ih, hboth, List.filter_append, List.append_assoc]

/-- Survivors have been added. -/
theorem exists_of_mem_survivors {history : List Deed} {d : Descriptor} (h : d ∈ survivors history) :
    ∃ deed ∈ history, d ∈ deed.added := by
  induction history with
  | nil => cases h
  | cons deed later ih =>
    rcases List.mem_append.1 h with h | h
    · exact ⟨deed, List.mem_cons_self, (List.mem_filter.1 h).1⟩
    · obtain ⟨deed', hdeed', hd⟩ := ih h
      exact ⟨deed', List.mem_cons_of_mem _ hdeed', hd⟩

/-- Of a contributor that is removed, nothing survives but what is added later. -/
theorem contributor_ne_of_mem_survivors {history later : List Deed} {contributor : String}
    {d : Descriptor}
    (h : d ∈ survivors (history ++ .move (.removeContributor contributor) :: later))
    (hlater : ∀ deed ∈ later, ∀ d ∈ deed.added, d.contributor ≠ contributor) :
    d.contributor ≠ contributor := by
  rw [survivors_append, List.mem_append] at h
  rcases h with h | h
  · rintro rfl
    have hkept := (List.mem_filter.1 h).2
    simp [Deed.removes] at hkept
  · obtain ⟨deed, hdeed, hd⟩ := exists_of_mem_survivors h
    rcases List.mem_cons.1 hdeed with rfl | hdeed
    · cases hd
    · exact hlater deed hdeed d hd

/-! ## What an engine is made of -/

/-- An engine with given options and handlers, whose cache has the capacity that the options say,
and in which the testers of a list are registered. -/
structure Stocked (options : Options) (handlers : List Handler) (ds : List Descriptor)
    (e : Engine) : Prop where
  capacity : e.registry.cache.capacity = options.capacity
  options : e.options = options
  handlers : e.handlers = handlers
  lists : e.registry.Lists ds

/-- A new engine has no testers. -/
theorem stocked_make (hmade : make platform options handlers = .ok e) :
    Stocked options handlers [] e := by
  rw [make, Options.validate] at hmade
  split at hmade
  · cases hmade
  · obtain rfl := Except.ok.inj hmade
    exact ⟨rfl, rfl, rfl, lists_empty options.capacity⟩

/-- Lookups leave the capacity of the cache as it is. -/
theorem resolve_capacity (receiver : Value) (key : PropertyKey)
    (hkey : receiver.typeName = key.typeName) (force : Bool) (e : Engine) :
    (resolve receiver key.namespaceName key.name force e).2.registry.cache.capacity =
      e.registry.cache.capacity := by
  have hresolves := resolve_resolves receiver key hkey force e
  generalize (resolve receiver key.namespaceName key.name force e).1 = answer at hresolves
  generalize (resolve receiver key.namespaceName key.name force e).2 = e' at hresolves ⊢
  cases hresolves with
  | cached hit valid hs => rw [hs.cache, Recency.get_capacity]
  | found journal miss direct =>
    obtain ⟨_, _, hs⟩ := direct.advance
    rw [putCached, Recency.put, hs.cache, dropping, Recency.missed_capacity]
  | failed journal miss direct =>
    obtain ⟨_, _, hs⟩ := direct.advance
    rw [hs.cache, dropping, Recency.missed_capacity]

/-- Lookups, definitions and events change nothing about what an engine is made of. -/
theorem steady_stocked (options : Options) (handlers : List Handler) (ds : List Descriptor) :
    Steady (Stocked options handlers ds) where
  record _ _ _ he := ⟨he.capacity, he.options, he.handlers, he.lists⟩
  resolve receiver namespaceName property force e he := by
    obtain ⟨_, _, hs⟩ := resolve_shows receiver namespaceName property force e
    have hcapacity := resolve_capacity receiver ⟨_, namespaceName, property⟩ rfl force e
    exact ⟨hcapacity.trans he.capacity, hs.options.trans he.options,
      hs.handlers.trans he.handlers, he.lists.congr hs.registered⟩
  definition := definition_keeps fun _ _ _ he =>
    ⟨he.capacity, he.options, he.handlers, he.lists⟩

/-- **A deed takes away the testers that it removes and adds the new ones behind the others.** -/
theorem Stocked.perform (he : Stocked options handlers ds e) (deed : Deed) :
    Stocked options handlers (ds.filter (fun d => !deed.removes d.contributor) ++ deed.added)
      (deed.perform e) := by
  -- most deeds remove and add nothing
  have keep : ∀ {e'}, (∀ contributor, deed.removes contributor = false) → deed.added = [] →
      Stocked options handlers ds e' →
      Stocked options handlers (ds.filter (fun d => !deed.removes d.contributor) ++ deed.added)
        e' := by
    intro e' hremoves hadded he'
    have hall : ds.filter (fun d => !deed.removes d.contributor) = ds :=
      List.filter_eq_self.2 fun d _ => by rw [hremoves, Bool.not_false]
    rwa [hall, hadded, List.append_nil]
  cases deed with
  | host platform definitions =>
    exact keep (fun _ => rfl) rfl ⟨he.capacity, he.options, he.handlers, he.lists⟩
  | move m =>
    cases m with
    | lookUp receiver namespaceName property force =>
      exact keep (fun _ => rfl) rfl
        ((steady_stocked options handlers ds).resolve _ _ _ _ e he)
    | evaluate x ctx =>
      exact keep (fun _ => rfl) rfl (evaluate_keeps (steady_stocked options handlers ds) x ctx e he)
    | activate contributor =>
      exact keep (fun _ => rfl) rfl ⟨he.capacity, he.options, he.handlers, he.lists⟩
    | deactivate contributor =>
      exact keep (fun _ => rfl) rfl ⟨he.capacity, he.options, he.handlers, he.lists⟩
    | registryChanged =>
      exact keep (fun _ => rfl) rfl ⟨he.capacity, he.options, he.handlers, he.lists⟩
    | addTesters new =>
      have hall : ds.filter (fun d => !(Deed.move (.addTesters new)).removes d.contributor) = ds :=
        List.filter_eq_self.2 fun _ _ => rfl
      rw [hall]
      exact ⟨(add_capacity e.registry new).trans he.capacity, he.options, he.handlers,
        he.lists.add new⟩
    | removeContributor contributor =>
      have hothers : ds.filter
          (fun d => !(Deed.move (.removeContributor contributor)).removes d.contributor) =
            ds.filter (·.contributor != contributor) :=
        List.filter_congr fun d _ => by
          rw [Deed.removes, bne, BEq.comm]
      rw [hothers]
      refine ⟨he.capacity, he.options, he.handlers, ?_⟩
      show (e.registry.removeContributor contributor).Lists (_ ++ [])
      rw [List.append_nil]
      exact he.lists.removeContributor contributor

/-- A history takes away the testers that are removed in it, and adds its survivors. -/
theorem Stocked.after (he : Stocked options handlers ds e) (history : List Deed) :
    Stocked options handlers
      (ds.filter (fun d => !history.any (·.removes d.contributor)) ++ survivors history)
      (after history e) := by
  induction history generalizing ds e with
  | nil =>
    have hall : ds.filter (fun d => !([] : List Deed).any (·.removes d.contributor)) = ds :=
      List.filter_eq_self.2 fun _ _ => rfl
    rw [hall, survivors, List.append_nil]
    exact he
  | cons deed history ih =>
    have hrest := ih (he.perform deed)
    rw [List.filter_append, List.filter_filter, List.append_assoc] at hrest
    have hboth : ds.filter (fun d => !(deed :: history).any (·.removes d.contributor)) =
        ds.filter fun d => !history.any (·.removes d.contributor) && !deed.removes d.contributor :=
      List.filter_congr fun d _ => by
        rw [List.any_cons, Bool.not_or, Bool.and_comm]
    rw [hboth]
    exact hrest

/-- **What is registered after a history are its survivors.** -/
theorem stocked_after (hmade : make platform options handlers = .ok e₀) (history : List Deed) :
    Stocked options handlers (survivors history) (after history e₀) :=
  (stocked_make hmade).after history

/-- **Lookups answer with survivors only.** -/
theorem resolve_mem_survivors (hmade : make platform options handlers = .ok e₀)
    {history : List Deed} {receiver : Value} {namespaceName property : String} {force : Bool}
    {x : Resolved}
    (hx : (resolve receiver namespaceName property force (after history e₀)).1 = .ok x) :
    x.handle.descriptor ∈ survivors history := by
  have hsound := (reachable_after (.made hmade) history).sound
  have hentry := (resolve_answers hsound receiver namespaceName property force).entry x hx
  have hstocked := (steady_stocked options handlers (survivors history)).resolve receiver
    namespaceName property force _ (stocked_after hmade history)
  have hmem := hentry.registered
  rw [hstocked.lists.registrations] at hmem
  exact (List.mem_filter.1 hmem).1

end Engine

end Enablement
