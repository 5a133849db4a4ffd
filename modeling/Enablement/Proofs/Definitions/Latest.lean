import Enablement.Proofs.Definitions
/-!
# Definitions — the latest registrations

The definitions are kept in two tables, one of which also holds what has been converted so far. To
those who use them they are a single table of what each name was registered as last, of which an
element is converted whenever its expression is asked for (`transcript_latest`). The two tables are
related to that one name by name (`Kept`): each call replies as it does there, and keeps the
relation (`Tracks.reply_eq`, `Tracks.perform`).
-/

namespace Enablement

namespace Definitions

/-! ## The table of the latest registrations -/

/-- What a name is registered as. -/
inductive Registration where
  | element (e : Element)
  | finished (x : Expr)

/-- The expression that it gives for a name: the first child of an element, converted anew. -/
def Registration.expression (c : Converter) (id : String) : Registration → Except Fault Expr
  | element e =>
    match e.children with
    | [] => .error (.missingExpression (.emptyDefinition id))
    | child :: _ => c.convert child.toNode
  | finished x => .ok x

theorem Registration.expression_element (c : Converter) (id : String) (e : Element) :
    (element e).expression c id = convertElement c id e := rfl

/-- The identifier of an element, unless it is blank. -/
def identifier? (element : Element) : Option String :=
  (element.attributes.find? "id").filter fun id => Blank.trim id.toList ≠ []

/-- What can be done with definitions. -/
inductive Call where
  | addElement (id : String) (element : Element)
  | addDefinition (element : Element)
  | define (id : String) (x : Expr)
  | expression (id : String)
  | remove (id : String)
  | clear
  | contains (id : String)
  | ids
  | size
  | isEmpty

/-- What a call replies. -/
inductive Reply where
  | done
  | accepted (outcome : Except Fault Unit)
  | expression (outcome : Except Fault Expr)
  | flag (b : Bool)
  | names (ids : List String)
  | number (n : ℕ)

/-- What a call makes of the definitions. -/
def Call.perform (c : Converter) : Call → Definitions → Definitions
  | .addElement id element, d => d.addElement id element
  | .addDefinition element, d =>
    match d.addDefinition element with
    | .ok d' => d'
    | .error _ => d
  | .define id x, d => d.define id x
  | .expression id, d => (d.expression c id).2
  | .remove id, d => (d.remove id).1
  | .clear, d => d.clear
  | _, d => d

/-- What it replies. -/
def Call.reply (c : Converter) : Call → Definitions → Reply
  | .addDefinition element, d => .accepted ((d.addDefinition element).map fun _ => ())
  | .expression id, d => .expression (d.expression c id).1
  | .remove id, d => .flag (d.remove id).2
  | .contains id, d => .flag (d.contains id)
  | .ids, d => .names d.ids
  | .size, d => .number d.size
  | .isEmpty, d => .flag d.isEmpty
  | _, _ => .done

/-- What it makes of the latest registrations. -/
def Call.update : Call → NameMap Registration → NameMap Registration
  | .addElement id element, t => t.insert id (.element element)
  | .addDefinition element, t =>
    match identifier? element with
    | some id => t.insert id (.element element)
    | none => t
  | .define id x, t => t.insert id (.finished x)
  | .remove id, t => t.erase id
  | .clear, _ => {}
  | _, t => t

/-- What it replies by the latest registrations. -/
def Call.replyBy (c : Converter) : Call → NameMap Registration → Reply
  | .addDefinition element, _ =>
    .accepted (if (identifier? element).isSome then .ok () else .error (.missingAttribute tag "id"))
  | .expression id, t =>
    .expression (match t.find? id with
      | some r => r.expression c id
      | none => .error (.definitionNotFound id))
  | .remove id, t => .flag (t.contains id)
  | .contains id, t => .flag (t.contains id)
  | .ids, t => .names t.names
  | .size, t => .number t.size
  | .isEmpty, t => .flag t.isEmpty
  | _, _ => .done

/-! ## The two tables -/

variable {c : Converter} {id : String} {d : Definitions} {t : NameMap Registration}

/-- What the two tables hold under a name, by what it is registered as. -/
inductive Kept (c : Converter) (id : String) :
    Option Registration → Option Element → Option Expr → Prop
  | nothing : Kept c id none none none
  | unread (element : Element) : Kept c id (some (.element element)) (some element) none
  | converted {element : Element} {x : Expr} (h : convertElement c id element = .ok x) :
    Kept c id (some (.element element)) (some element) (some x)
  | finished (x : Expr) : Kept c id (some (.finished x)) none (some x)

/-- The two tables hold the latest registrations. -/
def Tracks (c : Converter) (t : NameMap Registration) (d : Definitions) : Prop :=
  ∀ id, Kept c id (t.find? id) (d.elements.find? id) (d.expressions.find? id)

theorem Kept.isSome_eq {r : Option Registration} {element : Option Element} {x : Option Expr}
    (h : Kept c id r element x) : (element.isSome || x.isSome) = r.isSome := by
  cases h <;> rfl

/-- A name is contained if it is registered. -/
theorem Tracks.contains_eq (h : Tracks c t d) (id : String) : d.contains id = t.contains id :=
  (h id).isSome_eq

/-- The names are listed in their order, each one once. -/
theorem Tracks.ids_eq (h : Tracks c t d) : d.ids = t.names := by
  refine NameSet.toList_eq_names fun n => ?_
  rw [NameSet.contains_insertAll, NameSet.ofList, NameSet.contains_insertAll,
    NameSet.contains_empty, Bool.false_or, NameMap.contains_names, NameMap.contains_names]
  exact h.contains_eq n

theorem Tracks.isEmpty_eq (h : Tracks c t d) : d.isEmpty = t.isEmpty := by
  rw [Bool.eq_iff_iff, Definitions.isEmpty, Bool.and_eq_true]
  simp only [NameMap.isEmpty_iff]
  rw [← forall_and]
  -- a name is in neither table exactly if it is not registered
  refine forall_congr' fun id => ?_
  have hsome := (h id).isSome_eq
  rw [← Option.not_isSome_iff_eq_none, ← Option.not_isSome_iff_eq_none,
    ← Option.not_isSome_iff_eq_none, ← hsome, Bool.or_eq_true, not_or]

/-- The tables hold the latest registrations after a change under one name. -/
theorem Tracks.of_ne {t' : NameMap Registration} {d' : Definitions} (h : Tracks c t d) (id : String)
    (hid : Kept c id (t'.find? id) (d'.elements.find? id) (d'.expressions.find? id))
    (ht : ∀ n, n ≠ id → t'.find? n = t.find? n)
    (he : ∀ n, n ≠ id → d'.elements.find? n = d.elements.find? n)
    (hx : ∀ n, n ≠ id → d'.expressions.find? n = d.expressions.find? n) : Tracks c t' d' := by
  intro n
  by_cases hn : n = id
  · rw [hn]
    exact hid
  · rw [ht n hn, he n hn, hx n hn]
    exact h n

/-- **An element is converted as if it were for the first time**, and the two tables still hold the
latest registrations. -/
theorem Tracks.expression (h : Tracks c t d) (id : String) :
    (d.expression c id).1 = (match t.find? id with
      | some r => r.expression c id
      | none => .error (.definitionNotFound id)) ∧
    Tracks c t (d.expression c id).2 := by
  have hkept := h id
  generalize ht : t.find? id = r at hkept ⊢
  generalize he : d.elements.find? id = element at hkept
  generalize hx : d.expressions.find? id = x at hkept
  cases hkept with
  | nothing =>
    rw [expression_of_none hx he]
    exact ⟨rfl, h⟩
  | unread element =>
    rw [expression_of_element hx he]
    refine ⟨(Registration.expression_element c id element).symm, ?_⟩
    cases hc : convertElement c id element with
    | error f => exact h
    | ok x =>
      -- what is kept under the name is what the element is converted to
      refine h.of_ne id ?_ (fun _ _ => rfl) (fun _ _ => rfl) fun n hn =>
        NameMap.find?_insert_of_ne hn _ _
      rw [ht, he, NameMap.find?_insert_self]
      exact .converted hc
  | converted hc =>
    rw [expression_of_find? hx]
    exact ⟨hc.symm.trans (Registration.expression_element c id _).symm, h⟩
  | finished x =>
    rw [expression_of_find? hx]
    exact ⟨rfl, h⟩

theorem Tracks.addElement (h : Tracks c t d) (id : String) (element : Element) :
    Tracks c (t.insert id (.element element)) (d.addElement id element) := by
  refine h.of_ne id ?_ (fun n hn => NameMap.find?_insert_of_ne hn _ _)
    (fun n hn => NameMap.find?_insert_of_ne hn _ _) fun n hn => NameMap.find?_erase_of_ne hn _
  rw [Definitions.addElement, NameMap.find?_insert_self, NameMap.find?_insert_self,
    NameMap.find?_erase_self]
  exact .unread element

theorem Tracks.define (h : Tracks c t d) (id : String) (x : Expr) :
    Tracks c (t.insert id (.finished x)) (d.define id x) := by
  refine h.of_ne id ?_ (fun n hn => NameMap.find?_insert_of_ne hn _ _)
    (fun n hn => NameMap.find?_erase_of_ne hn _) fun n hn => NameMap.find?_insert_of_ne hn _ _
  rw [Definitions.define, NameMap.find?_insert_self, NameMap.find?_insert_self,
    NameMap.find?_erase_self]
  exact .finished x

theorem Tracks.remove (h : Tracks c t d) (id : String) :
    Tracks c (t.erase id) (d.remove id).1 := by
  refine h.of_ne id ?_ (fun n hn => NameMap.find?_erase_of_ne hn _)
    (fun n hn => NameMap.find?_erase_of_ne hn _) fun n hn => NameMap.find?_erase_of_ne hn _
  rw [Definitions.remove, NameMap.find?_erase_self, NameMap.find?_erase_self,
    NameMap.find?_erase_self]
  exact .nothing

theorem tracks_empty (c : Converter) : Tracks c {} {} := fun _ => .nothing

/-- An element is registered under its identifier, or not at all. -/
theorem addDefinition_eq (d : Definitions) (element : Element) :
    d.addDefinition element = match identifier? element with
      | some id => .ok (d.addElement id element)
      | none => .error (.missingAttribute tag "id") := by
  rw [addDefinition, identifier?]
  cases element.attributes.find? "id" with
  | none => rfl
  | some id =>
    by_cases hid : Blank.trim id.toList = []
    · simp [Option.filter, hid]
    · simp [Option.filter, hid]

/-- **A call replies as it does by the latest registrations.** -/
theorem Tracks.reply_eq (h : Tracks c t d) (call : Call) : call.reply c d = call.replyBy c t := by
  cases call with
  | addDefinition element =>
    rw [Call.reply, Call.replyBy, addDefinition_eq]
    cases identifier? element <;> rfl
  | expression id => exact congrArg Reply.expression (h.expression id).1
  | remove id => exact congrArg Reply.flag (h.contains_eq id)
  | contains id => exact congrArg Reply.flag (h.contains_eq id)
  | ids => exact congrArg Reply.names h.ids_eq
  | size =>
    rw [Call.reply, Call.replyBy, Definitions.size, h.ids_eq, NameMap.names, List.length_map,
      NameMap.size]
  | isEmpty => exact congrArg Reply.flag h.isEmpty_eq
  | _ => rfl

/-- **The two tables go on holding the latest registrations.** -/
theorem Tracks.perform (h : Tracks c t d) (call : Call) :
    Tracks c (call.update t) (call.perform c d) := by
  cases call with
  | addElement id element => exact h.addElement id element
  | addDefinition element =>
    rw [Call.perform, Call.update, addDefinition_eq]
    cases identifier? element with
    | none => exact h
    | some id => exact h.addElement id element
  | define id x => exact h.define id x
  | expression id => exact (h.expression id).2
  | remove id => exact h.remove id
  | clear => exact tracks_empty c
  | _ => exact h

/-! ## Sequences of calls -/

/-- The replies to a sequence of calls, where each call changes what the next one is replied by. -/
def transcript {σ : Type} (reply : Call → σ → Reply) (change : Call → σ → σ) :
    List Call → σ → List Reply
  | [], _ => []
  | call :: next, s => reply call s :: transcript reply change next (change call s)

/-- The definitions after a sequence of calls. -/
def after (c : Converter) (calls : List Call) : Definitions :=
  calls.foldl (fun d call => call.perform c d) {}

/-- The latest registrations after it. -/
def latest (calls : List Call) : NameMap Registration :=
  calls.foldl (fun t call => call.update t) {}

/-- The two tables hold the latest registrations after any sequence of calls. -/
theorem tracks_after (c : Converter) (calls : List Call) :
    Tracks c (latest calls) (after c calls) := by
  -- by induction on the calls, from any tables that hold the latest registrations
  suffices h : ∀ t d, Tracks c t d →
      Tracks c (calls.foldl (fun t call => call.update t) t)
        (calls.foldl (fun d call => call.perform c d) d) from h _ _ (tracks_empty c)
  induction calls with
  | nil => exact fun _ _ h => h
  | cons call calls ih => exact fun _ _ h => ih _ _ (h.perform call)

/-- What holds the latest registrations replies to a sequence of calls as they do. -/
theorem Tracks.transcript_eq (h : Tracks c t d) (calls : List Call) :
    transcript (Call.reply c) (Call.perform c) calls d =
      transcript (Call.replyBy c) Call.update calls t := by
  induction calls generalizing t d with
  | nil => rfl
  | cons call next ih => rw [transcript, transcript, h.reply_eq, ih (h.perform call)]

/-- **What has been converted cannot be seen.** Any sequence of calls has the replies that a table
of the latest registrations gives, and asking for an expression changes none of the replies that
come later, whether there is one or not. After any sequence the names are listed in their order,
each once, and are those that are registered; there are none exactly if the definitions are empty.
An element without an identifier, or with a blank one, is refused and changes nothing. -/
theorem transcript_latest (c : Converter) (calls : List Call) :
    transcript (Call.reply c) (Call.perform c) calls {} =
        transcript (Call.replyBy c) Call.update calls {} ∧
      (∀ id next, transcript (Call.reply c) (Call.perform c) next
          (after c (calls ++ [.expression id])) =
        transcript (Call.reply c) (Call.perform c) next (after c calls)) ∧
      (after c calls).ids.Pairwise (· < ·) ∧
      (∀ id, id ∈ (after c calls).ids ↔ ∃ r, (latest calls).find? id = some r) ∧
      ((after c calls).isEmpty = true ↔ (after c calls).ids = []) ∧
      ∀ element, identifier? element = none →
        (Call.addDefinition element).reply c (after c calls) =
            .accepted (.error (.missingAttribute "definition" "id")) ∧
          (Call.addDefinition element).perform c (after c calls) = after c calls := by
  have h := tracks_after c calls
  refine ⟨(tracks_empty c).transcript_eq calls, fun id next => ?_, ?_, fun id => ?_, ?_,
    fun element helement => ?_⟩
  · -- the latest registrations are the same
    have hasked := tracks_after c (calls ++ [.expression id])
    have hlatest : latest (calls ++ [.expression id]) = latest calls := by
      rw [latest, List.foldl_append]
      rfl
    rw [hlatest] at hasked
    rw [hasked.transcript_eq, h.transcript_eq]
  · rw [h.ids_eq]
    exact (latest calls).sorted_names
  · rw [h.ids_eq, ← List.contains_iff_mem, NameMap.contains_names, NameMap.contains,
      Option.isSome_iff_exists]
  · rw [h.isEmpty_eq, h.ids_eq, NameMap.isEmpty, NameMap.names, List.isEmpty_iff,
      List.map_eq_nil_iff]
  · rw [Call.reply, Call.perform, addDefinition_eq, helement]
    exact ⟨rfl, rfl⟩

/-- A definition without a name, of an empty conjunction. -/
def unnamed : Element := .mk tag {} [.mk "and" {} [] none] none

/-- A definition is asked for, defined anew, asked for again and removed. -/
def redefined : List Call :=
  [.addElement "d" unnamed, .expression "d", .define "d" (.constant true), .ids, .expression "d",
    .remove "d", .expression "d"]

/-- Each time the latest registration answers, and without a name there is none. -/
theorem redefined_latest :
    transcript (Call.reply Standard.converter) (Call.perform Standard.converter) redefined {} =
        [.done, .expression (.ok (.and [])), .done, .names ["d"],
          .expression (.ok (.constant true)), .flag true,
          .expression (.error (.definitionNotFound "d"))] ∧
      identifier? unnamed = none ∧
      (Call.addDefinition unnamed).reply Standard.converter (after Standard.converter redefined) =
        .accepted (.error (.missingAttribute "definition" "id")) := by
  obtain ⟨hreplies, -, -, -, -, hrefused⟩ := transcript_latest Standard.converter redefined
  have hunnamed : identifier? unnamed = none := rfl
  exact ⟨hreplies.trans rfl, hunnamed, (hrefused unnamed hunnamed).1⟩

end Definitions

end Enablement
