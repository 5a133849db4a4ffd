import Enablement.Tester.Descriptor
import Mathlib.Data.List.Infix
/-!
# Tester descriptors — the names that a tester answers for

A descriptor keeps its names as one text between commas, and a name is asked for as a part of that
text. What such a question finds is read off the pieces of both texts: those of the question must
stand next to each other among those of the list (`handles_iff_pieces`). A question with one piece
is a name, and it is found exactly if it is listed. A question with commas in it is found where a
run of names is listed, and the empty one where a piece of the list is empty; neither is a name.
-/

namespace Enablement

/-! ## Parts of a text between commas -/

namespace Commas

variable {cs q : List Char}

theorem split_eq (cs : List Char) : split cs = cs.splitOn ',' := by
  induction cs with
  | nil => rfl
  | cons c cs ih =>
    rw [split, List.splitOn_cons_eq_if_modifyHead, ih]
    by_cases hc : c = ','
    · rw [if_pos hc, if_pos (beq_iff_eq.2 hc)]
    · rw [if_neg hc, if_neg (by simpa using hc)]
      have hne := List.splitOn_ne_nil ',' cs
      cases hsplit : cs.splitOn ',' with
      | nil => exact absurd hsplit hne
      | cons p ps => rfl

theorem split_ne_nil (cs : List Char) : split cs ≠ [] := by
  rw [split_eq]
  exact List.splitOn_ne_nil ',' cs

/-- A comma separates the pieces before it from those behind it. -/
theorem split_append_cons (as bs : List Char) :
    split (as ++ ',' :: bs) = split as ++ split bs := by
  rw [split_eq, split_eq, split_eq, List.splitOn_append_cons_self]

/-- A text without commas is its only piece. -/
theorem split_of_notMem (h : ',' ∉ cs) : split cs = [cs] := by
  rw [split_eq, List.splitOn_eq_singleton h]

/-- Pieces hold no commas. -/
theorem notMem_of_mem_split {p : List Char} (h : p ∈ split cs) : ',' ∉ p := by
  induction cs generalizing p with
  | nil =>
    rw [split, List.mem_singleton] at h
    rw [h]
    exact List.not_mem_nil
  | cons c cs ih =>
    rw [split] at h
    split at h
    · obtain rfl | h := List.mem_cons.1 h
      · exact List.not_mem_nil
      · exact ih h
    · rename_i hc
      split at h
      · rename_i p₀ ps hsplit
        rw [hsplit] at ih
        obtain rfl | h := List.mem_cons.1 h
        · rw [List.mem_cons, not_or]
          exact ⟨Ne.symm hc, ih List.mem_cons_self⟩
        · exact ih (List.mem_cons_of_mem _ h)
      · rw [List.mem_singleton.1 h, List.mem_singleton]
        exact Ne.symm hc

/-- A text with commas at both ends has an empty piece before the first and one behind the last. -/
theorem split_enclosed (cs : List Char) :
    split (',' :: (cs ++ [','])) = [] :: (split cs ++ [[]]) := by
  have houter := split_append_cons [] (cs ++ [','])
  have hinner := split_append_cons cs []
  rw [List.nil_append] at houter
  rw [houter, hinner]
  rfl

/-- A text with a comma at its end is its pieces with a comma behind each. -/
theorem append_comma_eq (cs : List Char) :
    cs ++ [','] = (split cs).flatMap fun p => p ++ [','] := by
  induction cs with
  | nil => rfl
  | cons c cs ih =>
    rw [List.cons_append, ih, split]
    split
    · rename_i hc
      rw [hc, List.flatMap_cons]
      rfl
    · obtain ⟨p, ps, hsplit⟩ := List.exists_cons_of_ne_nil (split_ne_nil cs)
      rw [hsplit, List.flatMap_cons, List.flatMap_cons]
      rfl

/-- The commas behind pieces may as well stand before them. -/
theorem cons_flatMap_eq (ps : List (List Char)) :
    ',' :: ps.flatMap (fun p => p ++ [',']) = ps.flatMap (fun p => ',' :: p) ++ [','] := by
  induction ps with
  | nil => rfl
  | cons p ps ih =>
    rw [List.flatMap_cons, List.flatMap_cons, List.append_assoc, List.append_assoc, ← ih]
    rfl

/-- **Between commas, a text is part of another one if its pieces stand there in a row.** -/
theorem enclosed_infix_iff :
    ',' :: (q ++ [',']) <:+: ',' :: (cs ++ [',']) ↔ split q <:+: split cs := by
  constructor
  · rintro ⟨before, after, h⟩
    have hsplit : split before ++ (split q ++ split after) = [] :: (split cs ++ [[]]) := by
      rw [← split_enclosed cs, ← h, ← split_append_cons, ← split_append_cons]
      simp
    -- the first piece and the last one belong to what stands around
    obtain ⟨p, ps, hbefore⟩ := List.exists_cons_of_ne_nil (split_ne_nil before)
    obtain ⟨ps', p', hafter⟩ := (List.eq_nil_or_concat (split after)).resolve_left
      (split_ne_nil after)
    rw [hbefore, hafter, List.cons_append] at hsplit
    have hrest : (ps ++ split q ++ ps') ++ [p'] = split cs ++ [[]] := by
      rw [← (List.cons.inj hsplit).2]
      simp
    exact ⟨ps, ps', (List.append_inj' hrest rfl).1⟩
  · rintro ⟨ps, ps', h⟩
    refine ⟨ps.flatMap (fun p => ',' :: p), ps'.flatMap (fun p => p ++ [',']), ?_⟩
    have hcs : cs ++ [','] = ps.flatMap (fun p => p ++ [',']) ++ ((q ++ [',']) ++
        ps'.flatMap (fun p => p ++ [','])) := by
      rw [append_comma_eq cs, ← h, List.flatMap_append, List.flatMap_append, ← append_comma_eq q,
        List.append_assoc]
    have hfront := congrArg (· ++ ((q ++ [',']) ++ ps'.flatMap fun p => p ++ [',']))
      (cons_flatMap_eq ps)
    rw [hcs]
    simpa using hfront.symm

end Commas

/-! ## The names of a descriptor -/

namespace Descriptor

variable {part l : List Char}

theorem occursIn_iff : occursIn part l = true ↔ part <:+: l := by
  induction l with
  | nil => rw [occursIn, List.isEmpty_iff, List.infix_nil]
  | cons c l ih =>
    rw [occursIn, Bool.or_eq_true, List.isPrefixOf_iff_prefix, ih, List.infix_cons_iff]

/-- The pieces of a list of names between its commas, without blanks; empty pieces are kept. -/
def pieces (names : String) : List (List Char) :=
  Commas.split (names.toList.filter fun c => !Blank.isBlank c)

variable {id typeName namespaceName names className contributor n q : String}

/-- The names listed are the pieces that are not empty. -/
theorem mem_properties_iff :
    q ∈ (ofFields id typeName namespaceName names className contributor).properties ↔
      q ≠ "" ∧ q.toList ∈ pieces names := by
  have hsplit : Commas.split (normalize names) = [] :: (pieces names ++ [[]]) :=
    Commas.split_enclosed _
  have hkeep : (([] : List Char) :: (pieces names ++ [[]])).filter (fun p => !p.isEmpty) =
      (pieces names).filter fun p => !p.isEmpty := by
    simp
  rw [properties, ofFields, hsplit, hkeep, List.mem_map]
  constructor
  · rintro ⟨p, hp, rfl⟩
    obtain ⟨hmem, hne⟩ := List.mem_filter.1 hp
    rw [String.toList_ofList]
    refine ⟨fun hempty => ?_, hmem⟩
    rw [String.ofList_eq_empty_iff.1 hempty] at hne
    cases hne
  · rintro ⟨hne, hmem⟩
    refine ⟨q.toList, List.mem_filter.2 ⟨hmem, ?_⟩, String.ofList_toList⟩
    simpa using hne

/-- **What a question finds**: its pieces, next to each other among those of the list. -/
theorem handles_iff_pieces :
    (ofFields id typeName namespaceName names className contributor).handles n q = true ↔
      namespaceName = n ∧ Commas.split q.toList <:+: pieces names := by
  rw [handles, Bool.and_eq_true, beq_iff_eq, occursIn_iff]
  exact and_congr_right fun _ => Commas.enclosed_infix_iff

/-- A question for a name finds the name. -/
theorem handles_iff_mem (hne : q ≠ "") (hq : ',' ∉ q.toList) :
    (ofFields id typeName namespaceName names className contributor).handles n q = true ↔
      namespaceName = n ∧
        q ∈ (ofFields id typeName namespaceName names className contributor).properties := by
  rw [handles_iff_pieces, mem_properties_iff, Commas.split_of_notMem hq, List.singleton_infix_iff]
  exact and_congr_right fun _ => (and_iff_right hne).symm

/-- What is listed is a name: not empty, and without commas. -/
theorem name_of_mem_properties
    (h : q ∈ (ofFields id typeName namespaceName names className contributor).properties) :
    q ≠ "" ∧ ',' ∉ q.toList := by
  obtain ⟨hne, hmem⟩ := mem_properties_iff.1 h
  exact ⟨hne, Commas.notMem_of_mem_split hmem⟩

/-- A tester is found to answer for a property exactly if its list names the property. -/
def AsListed (d : Descriptor) (n q : String) : Prop :=
  d.handles n q = true ↔ d.namespaceName = n ∧ q ∈ d.properties

instance (d : Descriptor) (n q : String) : Decidable (d.AsListed n q) :=
  inferInstanceAs (Decidable (_ ↔ _))

/-- **A descriptor answers for the names in its list, and beyond the list where the question is no
name**: for the empty text if the list has an empty piece, and for a text with commas if its pieces
are listed in a row. -/
theorem asListed_iff (id typeName namespaceName names className contributor n q : String) :
    (ofFields id typeName namespaceName names className contributor).AsListed n q ↔
      ¬ ((q = "" ∨ ',' ∈ q.toList) ∧ namespaceName = n ∧
        Commas.split q.toList <:+: pieces names) := by
  constructor
  · rintro hlisted ⟨hodd, hfound⟩
    have hmem := (hlisted.1 (handles_iff_pieces.2 hfound)).2
    obtain ⟨hne, hq⟩ := name_of_mem_properties hmem
    exact hodd.elim hne hq
  · intro hfound
    by_cases hodd : q = "" ∨ ',' ∈ q.toList
    · -- such a question is not listed, and it is not found either
      have hnot : ¬ (namespaceName = n ∧ Commas.split q.toList <:+: pieces names) :=
        fun h => hfound ⟨hodd, h⟩
      have hlist :
          q ∉ (ofFields id typeName namespaceName names className contributor).properties :=
        fun hmem => hodd.elim (name_of_mem_properties hmem).1 (name_of_mem_properties hmem).2
      exact iff_of_false (fun h => hnot (handles_iff_pieces.1 h)) fun h => hlist h.2
    · obtain ⟨hne, hq⟩ := not_or.1 hodd
      exact handles_iff_mem hne hq

/-- A question for two names in the order of the list is answered as if it were one of them. -/
theorem not_asListed_pair :
    ¬ (ofFields "t" "string" "ns" "a,b" "TrueTester" "c").AsListed "ns" "a,b" := by
  decide

end Descriptor

end Enablement
