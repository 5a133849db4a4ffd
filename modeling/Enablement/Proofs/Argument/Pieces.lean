import Enablement.Argument
import Enablement.Proofs.Results
import Mathlib.Algebra.Ring.Parity
import Mathlib.Data.List.TakeWhile
/-!
# Arguments — how a list of literals is cut

The scanner goes in and out of quotes, and takes two quotes in a row inside quotes as one character.
Going out and in again comes to the same (`cut_cons`), so it is inside quotes just where an odd
number of quotes stands before: a list is cut at the commas with an even number of quotes before
them (`all_cut`), and ends inside quotes if their whole number is odd (`isOpen_cut`). The answer can
then be told from the pieces (`Answer`): the first fault among those that end at a comma, or else
that a quote was left open, or else what becomes of the last piece.
-/

namespace Enablement.Argument

variable {s before rest : List Char} {c : Char} {quoted : Bool}

/-! ## Where a list is cut -/

/-- A comma of a text cuts it if an even number of quotes stands before it. -/
def Cuts (s : List Char) (i : ℕ) : Prop := s[i]? = some ',' ∧ Even ((s.take i).count '\'')

instance (s : List Char) (i : ℕ) : Decidable (Cuts s i) :=
  inferInstanceAs (Decidable (_ ∧ _))

/-- The pieces of a text, cut at the commas that cut it. -/
def pieces (s : List Char) : List (List Char) :=
  (s.zipIdx.splitOnP fun e => Cuts s e.2).map fun p => p.map Prod.fst

/-- The pieces of what stands behind a part of a text. -/
def piecesBehind (before rest : List Char) : List (List Char) :=
  ((rest.zipIdx before.length).splitOnP fun e => Cuts (before ++ rest) e.2).map fun p =>
    p.map Prod.fst

/-- Whether a part of a text ends inside quotes. -/
def endsQuoted (before : List Char) : Bool := decide (Odd (before.count '\''))

theorem even_count_iff : Even (before.count '\'') ↔ endsQuoted before = false := by
  rw [endsQuoted, decide_eq_false_iff_not, Nat.not_odd_iff_even]

/-- A quote leads in or out. -/
theorem endsQuoted_concat (before : List Char) (c : Char) :
    endsQuoted (before ++ [c]) = (endsQuoted before != (c == '\'')) := by
  rw [endsQuoted, endsQuoted, List.count_append, List.count_singleton]
  by_cases hc : c = '\''
  · rw [if_pos (beq_iff_eq.2 hc), hc]
    by_cases hodd : Odd (before.count '\'') <;> simp [hodd, Nat.odd_add_one]
  · rw [if_neg (mt beq_iff_eq.1 hc), beq_eq_false_iff_ne.2 hc, Nat.add_zero, Bool.bne_false]

/-- Behind a part of a text, a character cuts if it is a comma outside quotes. -/
theorem cuts_length_iff :
    Cuts (before ++ c :: rest) before.length ↔ c = ',' ∧ endsQuoted before = false := by
  rw [Cuts, List.getElem?_append_right le_rfl, Nat.sub_self, List.getElem?_cons_zero,
    Option.some_inj, List.take_left, even_count_iff]

theorem piecesBehind_ne_nil (before rest : List Char) : piecesBehind before rest ≠ [] := by
  rw [piecesBehind, ne_eq, List.map_eq_nil_iff]
  exact List.splitOnP_ne_nil _ _

/-- The first character ends a piece if it cuts. -/
theorem piecesBehind_of_cuts (h : c = ',' ∧ endsQuoted before = false) (rest : List Char) :
    piecesBehind before (c :: rest) = [] :: piecesBehind (before ++ [c]) rest := by
  have hcut : Cuts (before ++ c :: rest) before.length := cuts_length_iff.2 h
  rw [piecesBehind, List.zipIdx_cons, List.splitOnP_cons_eq_if_modifyHead,
    if_pos (decide_eq_true hcut), List.map_cons, piecesBehind, List.append_assoc,
    List.length_append]
  rfl

/-- It belongs to the first piece if it does not. -/
theorem piecesBehind_of_passes (h : ¬ (c = ',' ∧ endsQuoted before = false)) (rest : List Char) :
    piecesBehind before (c :: rest) =
      (piecesBehind (before ++ [c]) rest).modifyHead (c :: ·) := by
  have hpass : ¬ decide (Cuts (before ++ c :: rest) before.length) = true :=
    mt of_decide_eq_true (mt cuts_length_iff.1 h)
  have hbehind : piecesBehind (before ++ [c]) rest =
      ((rest.zipIdx (before.length + 1)).splitOnP fun e => Cuts (before ++ c :: rest) e.2).map
        fun p => p.map Prod.fst := by
    rw [piecesBehind, List.append_assoc, List.length_append]
    rfl
  rw [piecesBehind, List.zipIdx_cons, List.splitOnP_cons_eq_if_modifyHead, if_neg hpass, hbehind]
  cases (rest.zipIdx (before.length + 1)).splitOnP fun e => Cuts (before ++ c :: rest) e.2 with
  | nil => rfl
  | cons p ps => rfl

/-- **Nothing but the commas that cut is lost.** -/
theorem intercalate_piecesBehind (before rest : List Char) :
    [','].intercalate (piecesBehind before rest) = rest := by
  induction rest generalizing before with
  | nil => rfl
  | cons c rest ih =>
    have hrest := ih (before ++ [c])
    obtain ⟨p, ps, hpieces⟩ :=
      List.exists_cons_of_ne_nil (piecesBehind_ne_nil (before ++ [c]) rest)
    rw [hpieces] at hrest
    by_cases h : c = ',' ∧ endsQuoted before = false
    · rw [piecesBehind_of_cuts h, hpieces, List.intercalate_cons_cons, hrest, h.1]
      rfl
    · rw [piecesBehind_of_passes h, hpieces, List.modifyHead_cons, List.intercalate_cons_cons_left,
        hrest]

/-! ## The scanner -/

/-- All pieces, the last one included. -/
def Pieces.all (p : Pieces) : List (List Char) := p.closed ++ [p.last]

theorem Pieces.all_cons (p : Pieces) (c : Char) : (p.cons c).all = p.all.modifyHead (c :: ·) := by
  obtain ⟨closed, last, isOpen⟩ := p
  cases closed with
  | nil => rfl
  | cons q qs => rfl

theorem Pieces.isOpen_cons (p : Pieces) (c : Char) : (p.cons c).isOpen = p.isOpen := by
  obtain ⟨closed, last, isOpen⟩ := p
  cases closed with
  | nil => rfl
  | cons q qs => rfl

theorem cut_comma (rest : List Char) :
    cut false (',' :: rest) = { cut false rest with closed := [] :: (cut false rest).closed } := by
  rw [cut, if_pos rfl]

/-- **One character at a time.** Where two quotes in a row are taken as one character, the scanner
might as well go out with the first and in with the second. -/
theorem cut_cons (h : ¬ (c = ',' ∧ quoted = false)) (rest : List Char) :
    cut quoted (c :: rest) = (cut (quoted != (c == '\'')) rest).cons c := by
  cases quoted with
  | false =>
    have hc : c ≠ ',' := fun hc => h ⟨hc, rfl⟩
    rw [cut, if_neg hc, Bool.false_bne]
  | true =>
    rw [Bool.true_bne]
    by_cases hdouble : c = '\'' ∧ ∃ r, rest = '\'' :: r
    · obtain ⟨rfl, r, rfl⟩ := hdouble
      rfl
    · rw [cut]
      · rfl
      · exact fun r hc hr => hdouble ⟨hc, r, hr⟩

/-- **The pieces of the scanner are those between the commas that cut.** -/
theorem all_cut (before rest : List Char) :
    (cut (endsQuoted before) rest).all = piecesBehind before rest := by
  induction rest generalizing before with
  | nil => rfl
  | cons c rest ih =>
    have hrest := ih (before ++ [c])
    by_cases h : c = ',' ∧ endsQuoted before = false
    · rw [piecesBehind_of_cuts h, ← hrest, endsQuoted_concat, h.2, h.1, cut_comma]
      rfl
    · rw [piecesBehind_of_passes h, ← hrest, endsQuoted_concat, cut_cons h, Pieces.all_cons]

/-- **The scanner ends inside quotes if a quote has no partner.** -/
theorem isOpen_cut (before rest : List Char) :
    (cut (endsQuoted before) rest).isOpen = endsQuoted (before ++ rest) := by
  induction rest generalizing before with
  | nil => rw [cut, List.append_nil]
  | cons c rest ih =>
    have hrest := ih (before ++ [c])
    rw [List.append_assoc, List.singleton_append, endsQuoted_concat] at hrest
    by_cases h : c = ',' ∧ endsQuoted before = false
    · rw [h.2, h.1] at hrest ⊢
      rw [cut_comma, ← hrest]
      rfl
    · rw [cut_cons h, Pieces.isOpen_cons, hrest]

/-- A text as the scanner sees it. -/
theorem all_cut_false (s : List Char) : (cut false s).all = pieces s := all_cut [] s

theorem isOpen_cut_false (s : List Char) : (cut false s).isOpen = true ↔ Odd (s.count '\'') := by
  have hopen : (cut false s).isOpen = endsQuoted s := isOpen_cut [] s
  rw [hopen, endsQuoted, decide_eq_true_eq]

/-! ## Blanks around a piece -/

/-- Trimming takes nothing but blanks, at both ends. -/
theorem exists_blanks_around (p : List Char) : ∃ front back : List Char,
    (∀ c ∈ front ++ back, Blank.isBlank c = true) ∧ p = front ++ Blank.trim p ++ back := by
  have hfront : p = p.takeWhile Blank.isBlank ++ Blank.trimLeft p :=
    List.takeWhile_append_dropWhile.symm
  have hback : Blank.trimLeft p = Blank.trim p ++
      ((Blank.trimLeft p).reverse.takeWhile Blank.isBlank).reverse := by
    rw [Blank.trim, ← List.reverse_append, Blank.trimLeft.eq_def (Blank.trimLeft p).reverse,
      List.takeWhile_append_dropWhile, List.reverse_reverse]
  refine ⟨p.takeWhile Blank.isBlank, ((Blank.trimLeft p).reverse.takeWhile Blank.isBlank).reverse,
    fun c hc => ?_, ?_⟩
  · obtain hc | hc := List.mem_append.1 hc
    · exact List.mem_takeWhile_imp hc
    · exact List.mem_takeWhile_imp (List.mem_reverse.1 hc)
  · rw [List.append_assoc, ← hback]
    exact hfront

/-! ## The answer -/

/-- What comes of a list whose text falls into pieces that end at a comma and a last one. -/
inductive Answer (text : String) (closed : List (List Char)) (last : List Char) :
    Except Fault (List Value) → Prop
  /-- One of the pieces that end at a comma has a fault, and those before it have none. -/
  | rejected {before after : List (List Char)} {p : List Char} {f : Fault}
    (split : closed = before ++ p :: after)
    (passed : ∀ q ∈ before, ∃ v, convert (Blank.trim q) = .ok v)
    (fault : convert (Blank.trim p) = .error f) : Answer text closed last (.error f)
  /-- They have values, but a quote has no partner. -/
  | unpaired {vs : List Value}
    (converted : List.Forall₂ (fun p v => convert (Blank.trim p) = .ok v) closed vs)
    (odd : Odd (text.toList.count '\'')) : Answer text closed last (.error (.notTerminated text))
  /-- Every quote has a partner, but the last piece has a fault. -/
  | lastRejected {vs : List Value} {f : Fault}
    (converted : List.Forall₂ (fun p v => convert (Blank.trim p) = .ok v) closed vs)
    (even : Even (text.toList.count '\'')) (fault : convert (Blank.trim last) = .error f) :
    Answer text closed last (.error f)
  /-- All pieces have values. -/
  | values {vs : List Value} {v : Value}
    (converted : List.Forall₂ (fun p v => convert (Blank.trim p) = .ok v) closed vs)
    (even : Even (text.toList.count '\'')) (value : convert (Blank.trim last) = .ok v) :
    Answer text closed last (.ok (vs ++ [v]))

/-- How the pieces are converted, the scanner aside. -/
theorem parse_eq (text : String) :
    parse text = match (cut false text.toList).closed.mapM fun p => convert (Blank.trim p) with
      | .error f => .error f
      | .ok vs =>
        if (cut false text.toList).isOpen then .error (.notTerminated text)
        else (convert (Blank.trim (cut false text.toList).last)).map fun v => vs ++ [v] := by
  rw [parse]
  cases (cut false text.toList).closed.mapM fun p => convert (Blank.trim p) with
  | error f => rfl
  | ok vs =>
    cases (cut false text.toList).isOpen with
    | true => rfl
    | false =>
      change (convert (Blank.trim (cut false text.toList).last) >>= fun v => pure (vs ++ [v])) = _
      cases convert (Blank.trim (cut false text.toList).last) with
      | error f => rfl
      | ok v => rfl

/-- **The answer can be told from the pieces.** -/
theorem parse_eq_iff_answer {text : String} {closed : List (List Char)} {last : List Char}
    (hpieces : pieces text.toList = closed ++ [last]) {r : Except Fault (List Value)} :
    parse text = r ↔ Answer text closed last r := by
  have hall : (cut false text.toList).closed ++ [(cut false text.toList).last] =
      closed ++ [last] := (all_cut_false text.toList).trans hpieces
  obtain ⟨hclosed, hlast⟩ := List.append_inj' hall rfl
  have hopen := isOpen_cut_false text.toList
  rw [parse_eq, hclosed, (List.cons.inj hlast).1]
  constructor
  · rintro rfl
    cases hvalues : closed.mapM fun p => convert (Blank.trim p) with
    | error f =>
      obtain ⟨before, p, after, hsplit, hpassed, hfault⟩ := mapM_eq_error_iff.1 hvalues
      exact .rejected hsplit hpassed hfault
    | ok vs =>
      have hconverted := mapM_eq_ok_iff.1 hvalues
      cases hodd : (cut false text.toList).isOpen with
      | true => exact .unpaired hconverted (hopen.1 hodd)
      | false =>
        have heven : Even (text.toList.count '\'') := by
          rw [← Nat.not_odd_iff_even, ← hopen, hodd]
          exact Bool.false_ne_true
        cases hv : convert (Blank.trim last) with
        | error f => exact .lastRejected hconverted heven hv
        | ok v => exact .values hconverted heven hv
  · intro h
    cases h with
    | rejected hsplit hpassed hfault =>
      rw [mapM_eq_error_iff.2 ⟨_, _, _, hsplit, hpassed, hfault⟩]
    | unpaired hconverted hodd =>
      rw [mapM_eq_ok_iff.2 hconverted]
      exact if_pos (hopen.2 hodd)
    | lastRejected hconverted heven hfault =>
      have hclose := mt hopen.1 (Nat.not_odd_iff_even.2 heven)
      rw [mapM_eq_ok_iff.2 hconverted, hfault]
      exact if_neg hclose
    | values hconverted heven hvalue =>
      have hclose := mt hopen.1 (Nat.not_odd_iff_even.2 heven)
      rw [mapM_eq_ok_iff.2 hconverted, hvalue]
      exact if_neg hclose

/-- Without a comma that cuts, a text is its only piece. -/
theorem pieces_of_not_cuts (h : ∀ i < s.length, ¬ Cuts s i) : pieces s = [s] := by
  have hpass : ∀ e ∈ s.zipIdx, decide (Cuts s e.2) = false := by
    intro e he
    have hlt : e.2 < s.length := by
      simpa using List.snd_lt_of_mem_zipIdx he
    exact decide_eq_false (h e.2 hlt)
  rw [pieces, List.splitOnP_eq_singleton hpass, List.map_singleton, List.zipIdx_map_fst]

/-- **A list of literals is cut by the parity of quotes.** Its pieces are what stands between the
commas with an even number of quotes before them, so that nothing else is lost but the blanks around
each piece. The answer is the first fault among the pieces that end at a comma; or else that a quote
is left open, if their number is odd; or else the fault of the last piece or all values. So a text
without such commas and without blanks at its ends is a single literal, if its quotes have partners.
-/
theorem parse_by_quote_parity (text : String) :
    ∃ closed last, pieces text.toList = closed ++ [last] ∧
      [','].intercalate (closed ++ [last]) = text.toList ∧
      (∀ p ∈ closed ++ [last], ∃ front back : List Char,
        (∀ c ∈ front ++ back, Blank.isBlank c = true) ∧ p = front ++ Blank.trim p ++ back) ∧
      (∀ r, parse text = r ↔ Answer text closed last r) ∧
      (Blank.trim text.toList = text.toList → Even (text.toList.count '\'') →
        (∀ i < text.toList.length, ¬ Cuts text.toList i) →
        parse text = (convert text.toList).map fun v => [v]) := by
  have hpieces : pieces text.toList =
      (cut false text.toList).closed ++ [(cut false text.toList).last] :=
    (all_cut_false text.toList).symm
  have hanswer : ∀ r, parse text = r ↔ Answer text _ _ r := fun r => parse_eq_iff_answer hpieces
  refine ⟨_, _, hpieces, ?_, fun p _ => exists_blanks_around p, hanswer,
    fun htrim heven hcuts => ?_⟩
  · rw [← hpieces]
    exact intercalate_piecesBehind [] text.toList
  · have hsingle : pieces text.toList = [] ++ [text.toList] := pieces_of_not_cuts hcuts
    rw [parse_eq_iff_answer hsingle]
    cases hv : convert text.toList with
    | error f => exact .lastRejected .nil heven (by rw [htrim, hv])
    | ok v => exact .values .nil heven (by rw [htrim, hv])

/-- A quoted comma does not cut, and two quotes in a row stand for one. -/
theorem parse_by_quote_parity_quoted :
    Blank.trim "'it''s, so'".toList = "'it''s, so'".toList ∧
      Even ("'it''s, so'".toList.count '\'') ∧
      (∀ i < "'it''s, so'".toList.length, ¬ Cuts "'it''s, so'".toList i) ∧
      parse "'it''s, so'" = .ok [.string "it's, so"] := by
  have htrim : Blank.trim "'it''s, so'".toList = "'it''s, so'".toList := by decide
  have heven : Even ("'it''s, so'".toList.count '\'') := by decide
  have hcuts : ∀ i < "'it''s, so'".toList.length, ¬ Cuts "'it''s, so'".toList i := by decide
  obtain ⟨-, -, -, -, -, -, hparse⟩ := parse_by_quote_parity "'it''s, so'"
  exact ⟨htrim, heven, hcuts, hparse htrim heven hcuts⟩

end Enablement.Argument
