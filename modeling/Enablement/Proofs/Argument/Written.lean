import Enablement.Proofs.Argument.Pieces
/-!
# Arguments — lists of literals that are written and read

A text is written between quotes with every quote in it doubled, a boolean by its name, an integer
of 32 bits in decimal. Such a literal is uncut: the scanner comes out of it outside of quotes and
has found no comma to cut at (`uncut_written`). So a list of literals, written with commas between
them and blanks around each, is cut into what was written (`all_cut_writtenList`), trimming leaves
the literals (`Blank.trim_eq`), and each is read as the value it was written for
(`convert_written`).
-/

namespace Enablement

/-! ## Blanks around a text -/

namespace Blank

variable {front w back : List Char}

/-- What does not begin with a blank loses nothing at the front. -/
theorem trimLeft_eq (hfront : ∀ c ∈ front, isBlank c = true)
    (hw : ∀ c ∈ w.head?, isBlank c = false) : trimLeft (front ++ w) = w := by
  rw [trimLeft, List.dropWhile_append_of_pos hfront]
  cases w with
  | nil => rfl
  | cons c r => rw [List.dropWhile_cons_of_neg (by simp [hw c rfl])]

/-- **Trimming takes away the blanks around a text** that neither begins nor ends with one. -/
theorem trim_eq (hblank : ∀ c ∈ front ++ back, isBlank c = true) (hne : w ≠ [])
    (hhead : ∀ c ∈ w.head?, isBlank c = false) (hlast : ∀ c ∈ w.getLast?, isBlank c = false) :
    trim (front ++ w ++ back) = w := by
  have hleft : trimLeft (front ++ (w ++ back)) = w ++ back := by
    refine trimLeft_eq (fun c hc => hblank c (List.mem_append_left back hc)) fun c hc => ?_
    rw [List.head?_append_of_ne_nil _ hne] at hc
    exact hhead c hc
  have hright : trimLeft (back.reverse ++ w.reverse) = w.reverse := by
    refine trimLeft_eq (fun c hc => ?_) fun c hc => ?_
    · exact hblank c (List.mem_append_right front (List.mem_reverse.1 hc))
    · rw [List.head?_reverse] at hc
      exact hlast c hc
  rw [trim, List.append_assoc, hleft, List.reverse_append, hright, List.reverse_reverse]

end Blank

namespace Argument

/-! ## Literals -/

/-- A value that can be written as a literal: a text, a boolean, or an integer of 32 bits. -/
inductive Literal where
  | text (s : String)
  | flag (b : Bool)
  | int (n : Int32)

namespace Literal

/-- The value that a literal is written for. -/
def value : Literal → Value
  | .text s => .string s
  | .flag b => .bool b
  | .int n => .number (.int n.toInt64)

/-- How it is written. -/
def written : Literal → List Char
  | .text s => Quoted.quote s.toList
  | .flag true => "true".toList
  | .flag false => "false".toList
  | .int n => Digits.intDigits n.toInt

end Literal

/-- A literal in a list, with the blanks around it. -/
structure Spaced where
  front : List Char
  literal : Literal
  back : List Char
  blank : ∀ c ∈ front ++ back, Blank.isBlank c = true

/-- The literal with its blanks. -/
def Spaced.written (x : Spaced) : List Char := x.front ++ x.literal.written ++ x.back

/-- A list of literals with commas between them. -/
def writtenList (xs : List Spaced) : List Char := [','].intercalate (xs.map Spaced.written)

/-! ## What is not cut -/

variable {w w' rest : List Char} {p : Pieces}

/-- From outside of quotes the scanner comes out of a text outside of quotes, and has not cut it. -/
def Uncut (w : List Char) : Prop :=
  ∀ rest, cut false (w ++ rest) = w.foldr Pieces.cons (cut false rest)

theorem Uncut.append (h : Uncut w) (h' : Uncut w') : Uncut (w ++ w') := by
  intro rest
  rw [List.append_assoc, h, h', List.foldr_append]

/-- A text without commas and quotes is not cut. -/
theorem uncut_of_forall (h : ∀ c ∈ w, c ≠ ',' ∧ c ≠ '\'') : Uncut w := by
  intro rest
  induction w with
  | nil => rfl
  | cons c w ih =>
    obtain ⟨⟨hcomma, hquote⟩, hw⟩ := List.forall_mem_cons.1 h
    rw [List.cons_append, cut_cons fun hc => hcomma hc.1, beq_eq_false_iff_ne.2 hquote,
      Bool.bne_false, ih hw]
    rfl

/-- Inside quotes nothing cuts, and a doubled quote does not lead out. -/
theorem cut_escape (s rest : List Char) :
    cut true (Quoted.escape s ++ rest) = (Quoted.escape s).foldr Pieces.cons (cut true rest) := by
  have hin : ∀ c, ¬ (c = ',' ∧ true = false) := fun _ h => nomatch h.2
  induction s with
  | nil => rfl
  | cons c s ih =>
    rw [Quoted.escape]
    split
    · rw [List.cons_append, List.cons_append, cut, ih]
      rfl
    · next hc =>
      rw [List.cons_append, cut_cons (hin c), beq_eq_false_iff_ne.2 hc, Bool.bne_false, ih]
      rfl

/-- Quoted text is not cut, whatever it is. -/
theorem uncut_quote (s : List Char) : Uncut (Quoted.quote s) := by
  intro rest
  have hclose : cut true ('\'' :: rest) = (cut false rest).cons '\'' := by
    rw [cut_cons (by decide)]
    rfl
  rw [Quoted.quote, List.cons_append, List.append_assoc, List.singleton_append,
    cut_cons (by decide)]
  show (cut true _).cons '\'' = _
  rw [cut_escape, hclose, List.foldr_cons, List.foldr_append]
  rfl

/-- A blank is neither a comma nor a quote. -/
theorem uncut_of_blank (h : ∀ c ∈ w, Blank.isBlank c = true) : Uncut w := by
  refine uncut_of_forall fun c hc => ⟨?_, ?_⟩
  · rintro rfl
    exact absurd (h _ hc) (by decide)
  · rintro rfl
    exact absurd (h _ hc) (by decide)

/-- **Literals are not cut.** -/
theorem uncut_literal (l : Literal) : Uncut l.written := by
  cases l with
  | text s => exact uncut_quote s.toList
  | flag b =>
    refine uncut_of_forall ?_
    cases b <;> simp [Literal.written]
  | int n =>
    refine uncut_of_forall fun c hc => ⟨?_, ?_⟩
    · rintro rfl
      exact absurd (Digits.mem_intDigits hc) (by decide)
    · rintro rfl
      exact absurd (Digits.mem_intDigits hc) (by decide)

theorem uncut_written (x : Spaced) : Uncut x.written := by
  have hfront := uncut_of_blank fun c hc => x.blank c (List.mem_append_left _ hc)
  have hback := uncut_of_blank fun c hc => x.blank c (List.mem_append_right _ hc)
  exact (hfront.append (uncut_literal x.literal)).append hback

/-! ## Where a list of literals is cut -/

theorem Pieces.all_foldr_cons (w : List Char) (p : Pieces) :
    (w.foldr Pieces.cons p).all = p.all.modifyHead (w ++ ·) := by
  induction w with
  | nil =>
    rw [List.foldr_nil]
    cases p.all <;> rfl
  | cons c w ih =>
    rw [List.foldr_cons, all_cons, ih]
    cases p.all <;> rfl

theorem Pieces.isOpen_foldr_cons (w : List Char) (p : Pieces) :
    (w.foldr Pieces.cons p).isOpen = p.isOpen := by
  induction w with
  | nil => rfl
  | cons c w ih => rw [List.foldr_cons, isOpen_cons, ih]

/-- What is not cut is the only piece. -/
theorem Uncut.cut_eq (h : Uncut w) : (cut false w).all = [w] ∧ (cut false w).isOpen = false := by
  have hcut := h []
  rw [List.append_nil] at hcut
  rw [hcut, Pieces.all_foldr_cons, Pieces.isOpen_foldr_cons]
  refine ⟨?_, rfl⟩
  show [w ++ []] = [w]
  rw [List.append_nil]

/-- With a comma behind it, it is the first one. -/
theorem Uncut.cut_comma_eq (h : Uncut w) (rest : List Char) :
    (cut false (w ++ ',' :: rest)).all = w :: (cut false rest).all ∧
      (cut false (w ++ ',' :: rest)).isOpen = (cut false rest).isOpen := by
  rw [h, Pieces.all_foldr_cons, Pieces.isOpen_foldr_cons, cut_comma]
  refine ⟨?_, rfl⟩
  show (w ++ []) :: (cut false rest).all = _
  rw [List.append_nil]

/-- **A written list is cut into its literals** with their blanks, and ends outside of quotes. -/
theorem all_cut_writtenList (x : Spaced) (xs : List Spaced) :
    (cut false (writtenList (x :: xs))).all = (x :: xs).map Spaced.written ∧
      (cut false (writtenList (x :: xs))).isOpen = false := by
  induction xs generalizing x with
  | nil =>
    rw [writtenList, List.map_singleton, List.intercalate_singleton]
    exact (uncut_written x).cut_eq
  | cons y ys ih =>
    have hjoin : writtenList (x :: y :: ys) = x.written ++ ',' :: writtenList (y :: ys) := by
      rw [writtenList, List.map_cons, List.map_cons, List.intercalate_cons_cons,
        List.append_assoc, List.singleton_append]
      rfl
    obtain ⟨hall, hopen⟩ := (uncut_written x).cut_comma_eq (writtenList (y :: ys))
    obtain ⟨hrest, hclosed⟩ := ih y
    rw [hjoin, hall, hopen, hrest]
    exact ⟨rfl, hclosed⟩

/-! ## Reading a literal -/

theorem quotedBody?_quote (s : List Char) :
    quotedBody? (Quoted.quote s) = some (Quoted.escape s) := by
  rw [Quoted.quote]
  cases hs : Quoted.escape s with
  | nil => rfl
  | cons c r =>
    rw [List.cons_append, quotedBody?, ← List.cons_append, List.getLast?_concat, if_pos rfl,
      List.dropLast_concat]

/-- Without a quote at the front there are none around. -/
theorem quotedBody?_of_head? (h : w.head? ≠ some '\'') : quotedBody? w = none := by
  rw [quotedBody?]
  rintro c r rfl
  exact h rfl

/-- An integer of 32 bits is one of 64 bits. -/
theorem ofInt_toInt (n : Int32) : Number.ofInt n.toInt = .int n.toInt64 := by
  have hlow := n.le_toInt
  have hhigh := n.toInt_lt
  have hfits : Number.fitsInt64 n.toInt = true := by
    simp only [Number.fitsInt64, Bool.and_eq_true, decide_eq_true_eq]
    have hpow : (pow2 63 : ℤ) = 2 ^ 63 := rfl
    omega
  rw [Number.ofInt, if_pos hfits, Int64.ofInt_int32ToInt]

/-- Decimal digits are no name of a boolean and have no point, so they are read as an integer. -/
theorem plain_intDigits (n : Int32) :
    plain (Digits.intDigits n.toInt) = .number (.int n.toInt64) := by
  have hnot {c : Char} {w : List Char} (hc : c ∈ w)
      (hletter : ¬ (c = '-' ∨ Digits.isDigit c = true)) : Digits.intDigits n.toInt ≠ w :=
    fun h => hletter (Digits.mem_intDigits (h ▸ hc))
  have htrue : Digits.intDigits n.toInt ≠ "true".toList := hnot (c := 't') (by decide) (by decide)
  have hfalse : Digits.intDigits n.toInt ≠ "false".toList := hnot (c := 'f') (by decide) (by decide)
  have hpoint : '.' ∉ Digits.intDigits n.toInt := fun h =>
    absurd (Digits.mem_intDigits h) (by decide)
  have hread : Digits.readInt32? (Digits.intDigits n.toInt) = some n.toInt := by
    have hpow : (pow2 31 : ℤ) = 2 ^ 31 := rfl
    have hlow := n.le_toInt
    have hhigh := n.toInt_lt
    exact Digits.readIn?_intDigits (by omega) (by omega)
  rw [plain, if_neg htrue, if_neg hfalse, if_neg hpoint, hread]
  dsimp only
  rw [ofInt_toInt]

/-- **A written literal is read as its value.** -/
theorem convert_written (l : Literal) : convert l.written = .ok l.value := by
  cases l with
  | text s =>
    have hread : unescape (Quoted.escape s.toList) = .ok s := by
      rw [unescape, Quoted.unescape?_escape]
      dsimp only
      rw [String.ofList_toList]
    rw [Literal.written, convert, quotedBody?_quote]
    dsimp only
    rw [hread]
    rfl
  | flag b => cases b <;> rfl
  | int n =>
    have hhead : (Digits.intDigits n.toInt).head? ≠ some '\'' := fun h =>
      absurd (Digits.mem_intDigits (List.mem_of_head? h)) (by decide)
    rw [Literal.written, convert, quotedBody?_of_head? hhead]
    dsimp only
    rw [plain_intDigits]
    rfl

/-- No character of a written integer is blank. -/
theorem isBlank_of_mem_intDigits {n : ℤ} {c : Char} (h : c ∈ Digits.intDigits n) :
    Blank.isBlank c = false := by
  obtain rfl | hdigit := Digits.mem_intDigits h
  · decide
  · simp only [Digits.isDigit, Bool.and_eq_true, decide_eq_true_eq] at hdigit
    simp only [Blank.isBlank, Blank.ranges, List.any_eq_false, List.forall_mem_cons,
      List.not_mem_nil, false_implies, implies_true, and_true, Bool.and_eq_true, decide_eq_true_eq]
    omega

/-- **Trimming leaves the literal**: it neither begins nor ends with a blank, even if the text
between its quotes does. -/
theorem trim_written (x : Spaced) : Blank.trim x.written = x.literal.written := by
  obtain ⟨front, literal, back, hblank⟩ := x
  have hends : literal.written ≠ [] ∧ (∀ c ∈ literal.written.head?, Blank.isBlank c = false) ∧
      ∀ c ∈ literal.written.getLast?, Blank.isBlank c = false := by
    cases literal with
    | text s =>
      have hlast : (Quoted.quote s.toList).getLast? = some '\'' := by
        rw [Quoted.quote, ← List.cons_append, List.getLast?_concat]
      refine ⟨List.cons_ne_nil _ _, ?_, fun c hc => ?_⟩
      · rintro c ⟨⟩
        decide
      · rw [Literal.written, hlast] at hc
        cases hc
        decide
    | flag b => cases b <;> simp [Literal.written] <;> decide
    | int n =>
      exact ⟨Digits.intDigits_ne_nil n.toInt,
        fun c hc => isBlank_of_mem_intDigits (List.mem_of_head? hc),
        fun c hc => isBlank_of_mem_intDigits (List.mem_of_getLast? hc)⟩
  exact Blank.trim_eq hblank hends.1 hends.2.1 hends.2.2

/-! ## Reading a list -/

/-- A list whose quotes have partners is read piece by piece. -/
theorem parse_eq_mapM {text : String} (h : (cut false text.toList).isOpen = false) :
    parse text = (cut false text.toList).all.mapM fun p => convert (Blank.trim p) := by
  rw [parse_eq, h, Pieces.all, List.mapM_append, List.mapM_cons, List.mapM_nil]
  cases (cut false text.toList).closed.mapM fun p => convert (Blank.trim p) with
  | error f => rfl
  | ok vs =>
    dsimp only
    rw [if_neg Bool.false_ne_true]
    cases convert (Blank.trim (cut false text.toList).last) with
    | error f => rfl
    | ok v => rfl

/-- **A list of literals that is written is read back**: the same values in the same order, each of
its own type, whatever characters are in the texts and whatever blanks stand around the literals. -/
theorem parse_writtenList (x : Spaced) (xs : List Spaced) :
    parse (String.ofList (writtenList (x :: xs))) =
      .ok ((x :: xs).map fun y => y.literal.value) := by
  obtain ⟨hall, hclosed⟩ := all_cut_writtenList x xs
  rw [← String.toList_ofList (l := writtenList (x :: xs))] at hall hclosed
  rw [parse_eq_mapM hclosed, hall, mapM_eq_ok_iff, List.forall₂_map_left_iff,
    List.forall₂_map_right_iff, List.forall₂_same]
  intro y _
  rw [trim_written, convert_written]

/-- A text with a quote, a comma and a blank in it, an empty one, and two that look like something
else. -/
example : parse "'it''s, so ' ,'','7',\t'true', true,-7 " =
    .ok [.string "it's, so ", .string "", .string "7", .string "true", .bool true,
      .number (.int (-7))] := by
  rfl

end Argument

end Enablement
