import Enablement.Json.Printer
import Enablement.Json.Reader
import Mathlib.Data.Int.Notation
import Mathlib.Data.Nat.Notation
/-!
# Document text — strings and whole numbers are read back

A string is read as pieces, and each character that is written is one piece, which stands for that
character alone (`exists_piece`); so the pieces up to the closing quote are the characters of the
string. A whole number of 64 bits is written without leading zeros, as the reader wants it, and what
follows in a document is neither a digit nor a part of a fraction.
-/

namespace Enablement.Json

open Digits

variable {c : Char} {cs ds rest : List Char} {n : ℕ}

/-! ## Strings -/

/-- A piece stands for a character, whatever comes behind it. -/
def Piece.Denotes (p : Piece) (c : Char) : Prop :=
  ∀ ps, joinPieces? (p :: ps) = (joinPieces? ps).map (c :: ·)

theorem Piece.denotes_char (c : Char) : (Piece.char c).Denotes c := by
  intro ps
  rw [joinPieces?]

/-- Units below the surrogates stand for themselves. -/
theorem Piece.denotes_unit (h : c.toNat < 0xD800) : (Piece.unit c.toNat).Denotes c := by
  intro ps
  have hhigh : ¬ (0xD800 ≤ c.toNat && c.toNat ≤ 0xDBFF) = true := by
    simp only [Bool.and_eq_true, decide_eq_true_eq]
    omega
  have hlow : ¬ (0xDC00 ≤ c.toNat && c.toNat ≤ 0xDFFF) = true := by
    simp only [Bool.and_eq_true, decide_eq_true_eq]
    omega
  rw [joinPieces?.eq_def]
  dsimp only
  rw [if_neg hhigh, if_neg hlow, Char.ofNat_toNat]

/-- A backslash and a letter are one piece. -/
theorem pieces_escaped {e : Char} (he : escaped? c = some e) (rest : List Char) :
    pieces ('\\' :: c :: rest) = (pieces rest).map fun q => (.char e :: q.1, q.2) := by
  have hu : c ≠ 'u' := by
    rintro rfl
    cases he
  rw [pieces.eq_4 _ _ fun _ _ _ _ _ h => absurd h hu, he]
  cases pieces rest <;> rfl

/-- Four digits of a control character are one piece. -/
theorem pieces_control (h : n < 32) (rest : List Char) :
    pieces ('\\' :: 'u' :: '0' :: '0' :: hexDigit (n / 16) :: hexDigit (n % 16) :: rest) =
      (pieces rest).map fun q => (.unit n :: q.1, q.2) := by
  have hall : ∀ n : Fin 32,
      hexUnit? '0' '0' (hexDigit (n / 16)) (hexDigit (n % 16)) = some n.val := by decide
  rw [pieces.eq_3, hall ⟨n, h⟩]
  cases pieces rest <;> rfl

/-- Any other character is one piece. -/
theorem pieces_plain (hquote : c ≠ '"') (hslash : c ≠ '\\') (hcontrol : ¬ c.toNat < 32)
    (rest : List Char) :
    pieces (c :: rest) = (pieces rest).map fun q => (.char c :: q.1, q.2) := by
  rw [pieces.eq_5 _ _ hquote (fun _ _ _ _ _ h => absurd h hslash) fun _ _ h => absurd h hslash,
    if_neg (by simp [hslash, hcontrol])]
  cases pieces rest <;> rfl

/-- **Each character is written as one piece, which stands for it.** -/
theorem exists_piece (c : Char) : ∃ p : Piece, p.Denotes c ∧ ∀ rest,
    pieces (escapeChar c ++ rest) = (pieces rest).map fun q => (p :: q.1, q.2) := by
  have hshort (letter : Char) (hletter : escaped? letter = some c)
      (hwritten : escapeChar c = ['\\', letter]) : ∃ p : Piece, p.Denotes c ∧ ∀ rest,
        pieces (escapeChar c ++ rest) = (pieces rest).map fun q => (p :: q.1, q.2) := by
    refine ⟨.char c, Piece.denotes_char c, fun rest => ?_⟩
    rw [hwritten]
    exact pieces_escaped hletter rest
  have hcode {code : ℕ} (h : c.toNat = code) : c = Char.ofNat code := by
    rw [← h, Char.ofNat_toNat]
  by_cases hquote : c = '"'
  · exact hshort '"' (by rw [hquote]; rfl) (by rw [hquote]; rfl)
  by_cases hslash : c = '\\'
  · exact hshort '\\' (by rw [hslash]; rfl) (by rw [hslash]; rfl)
  by_cases h8 : c.toNat = 8
  · exact hshort 'b' (by rw [hcode h8]; rfl) (by rw [hcode h8]; rfl)
  by_cases h9 : c.toNat = 9
  · exact hshort 't' (by rw [hcode h9]; rfl) (by rw [hcode h9]; rfl)
  by_cases h10 : c.toNat = 10
  · exact hshort 'n' (by rw [hcode h10]; rfl) (by rw [hcode h10]; rfl)
  by_cases h12 : c.toNat = 12
  · exact hshort 'f' (by rw [hcode h12]; rfl) (by rw [hcode h12]; rfl)
  by_cases h13 : c.toNat = 13
  · exact hshort 'r' (by rw [hcode h13]; rfl) (by rw [hcode h13]; rfl)
  unfold escapeChar
  simp only [hquote, hslash, h8, h9, h10, h12, h13, if_false]
  split
  · next hcontrol =>
    exact ⟨.unit c.toNat, Piece.denotes_unit (by omega), pieces_control hcontrol⟩
  · next hcontrol => exact ⟨.char c, Piece.denotes_char c, pieces_plain hquote hslash hcontrol⟩

/-- The pieces of what is written are those of the characters. -/
theorem exists_pieces (cs rest : List Char) : ∃ ps,
    pieces (cs.flatMap escapeChar ++ '"' :: rest) = some (ps, rest) ∧ joinPieces? ps = some cs := by
  induction cs with
  | nil => exact ⟨[], pieces.eq_2 rest, joinPieces?.eq_1⟩
  | cons c cs ih =>
    obtain ⟨p, hdenotes, hpiece⟩ := exists_piece c
    obtain ⟨ps, hps, hjoin⟩ := ih
    refine ⟨p :: ps, ?_, ?_⟩
    · rw [List.flatMap_cons, List.append_assoc, hpiece, hps]
      rfl
    · rw [hdenotes, hjoin]
      rfl

/-- **A written string is read back**, whatever comes behind it. -/
theorem readString_written (s : String) (rest : List Char) :
    readString (s.toList.flatMap escapeChar ++ '"' :: rest) = some (s, rest) := by
  obtain ⟨ps, hps, hjoin⟩ := exists_pieces s.toList rest
  simp [readString, hps, hjoin]

/-! ## Whole numbers -/

/-- What comes behind a value in a document: nothing, a comma, or a closing bracket or brace. -/
def Stops (rest : List Char) : Prop := ∀ c ∈ rest.head?, c = ',' ∨ c = ']' ∨ c = '}'

theorem stops_nil : Stops [] := nofun

theorem Stops.isDigit (h : Stops (c :: rest)) : isDigit c = false := by
  rcases h c rfl with rfl | rfl | rfl <;> rfl

/-- Digits are read up to a character that is none. -/
theorem spanDigits_append (hds : ∀ c ∈ ds, isDigit c = true) (hrest : Stops rest) :
    Binary64.spanDigits (ds ++ rest) = (ds, rest) := by
  induction ds with
  | nil =>
    cases rest with
    | nil => rfl
    | cons c rest => rw [List.nil_append, Binary64.spanDigits, hrest.isDigit, if_neg nofun]
  | cons d ds ih =>
    have hd := hds d List.mem_cons_self
    rw [List.cons_append, Binary64.spanDigits, if_pos hd,
      ih fun c hc => hds c (List.mem_cons_of_mem d hc)]

/-- A positive number does not begin with a zero. -/
theorem head?_natDigits (h : 0 < n) : (natDigits n).head? ≠ some '0' := by
  induction n using Nat.strongRecOn with
  | ind n ih =>
  rw [natDigits]
  split
  · next hsmall =>
    have hall : ∀ d : Fin 10, 0 < d.val → char d ≠ '0' := by decide
    simpa using hall ⟨n, hsmall⟩ h
  · have htenth := ih (n / 10) (by omega) (by omega)
    obtain ⟨d, ds, hds⟩ := List.exists_cons_of_ne_nil (natDigits_ne_nil (n / 10))
    rw [hds] at htenth ⊢
    exact htenth

theorem readWhole_natDigits (n : ℕ) (hrest : Stops rest) :
    readWhole (natDigits n ++ rest) = some (natDigits n, rest) := by
  have hdigits : ∀ c ∈ natDigits n, isDigit c = true := fun c hc => isDigit_of_mem_natDigits hc
  have hhead : n = 0 ∨ (natDigits n).head? ≠ some '0' := by
    rcases Nat.eq_zero_or_pos n with hzero | hpos
    · exact .inl hzero
    · exact .inr (head?_natDigits hpos)
  rw [readWhole, spanDigits_append hdigits hrest]
  cases hds : natDigits n with
  | nil => exact absurd hds (natDigits_ne_nil n)
  | cons d ds =>
    have hzeros : ¬ (d = '0' ∧ ds ≠ []) := by
      rintro ⟨rfl, hne⟩
      rcases hhead with rfl | hhead
      · have hzero : natDigits 0 = ['0'] := by decide +kernel
        rw [hzero] at hds
        exact hne (List.cons.inj hds).2.symm
      · rw [hds] at hhead
        exact hhead rfl
    dsimp only
    rw [if_neg hzeros]

theorem readFraction_stops (h : Stops rest) : readFraction rest = some ([], rest) := by
  unfold readFraction
  split
  · rcases h '.' rfl with h | h | h <;> cases h
  · rfl

theorem readPower_stops (h : Stops rest) : readPower rest = some (none, rest) := by
  cases rest with
  | nil => rfl
  | cons c rest =>
    rcases h c rfl with rfl | rfl | rfl <;> rfl

/-- What is read of digits behind an optional minus sign. -/
theorem readNumber_of_whole (negative : Bool) {k : Num} (hrest : Stops rest)
    (hwhole : wholeOf? negative (natDigits n) = some k) :
    readNumber ((if negative then ['-'] else []) ++ natDigits n ++ rest) = some (k, rest) := by
  have hread := readWhole_natDigits n hrest
  unfold readNumber
  cases negative with
  | true => simp [hread, readFraction_stops hrest, readPower_stops hrest, hwhole]
  | false =>
    obtain ⟨d, ds, hds⟩ := List.exists_cons_of_ne_nil (natDigits_ne_nil n)
    have hd : d ≠ '-' := by
      have hdigit : isDigit d = true := isDigit_of_mem_natDigits (n := n) (by rw [hds]; simp)
      rintro rfl
      cases hdigit
    rw [hds, List.cons_append] at hread
    rw [hds] at hwhole ⊢
    simp [hd, hread, readFraction_stops hrest, readPower_stops hrest, hwhole]

/-- **A written whole number of 64 bits is read back**, whatever may come behind it. -/
theorem readNumber_intDigits {i : ℤ} (hlow : -(pow2 63 : ℤ) ≤ i) (hhigh : i ≤ maxSignificand)
    (hrest : Stops rest) : readNumber (intDigits i ++ rest) = some (.int i, rest) := by
  cases i with
  | ofNat n =>
    have hle : n ≤ maxSignificand := Int.ofNat_le.1 hhigh
    refine readNumber_of_whole false hrest ?_
    simp [wholeOf?, ofDigits_natDigits, hle]
  | negSucc n =>
    have hle : n + 1 ≤ pow2 63 := by omega
    refine readNumber_of_whole true hrest ?_
    simp [wholeOf?, ofDigits_natDigits, hle, Int.negSucc_eq]

end Enablement.Json
