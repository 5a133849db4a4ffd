import Enablement.Number.Power
/-!
# Decimal digits — writing and reading whole numbers

A whole number is written without leading zeros and read digit by digit; reading what was written
gives the number back (`ofDigits_natDigits`). Only the ten ASCII digits count as digits.
-/

namespace Enablement.Digits

/-- The value of a digit character. -/
def value (c : Char) : Nat := c.toNat - 48

/-- The character of a digit below ten. -/
def char (d : Nat) : Char := Char.ofNat (48 + d)

/-- Whether a character is one of the ten ASCII digits. -/
def isDigit (c : Char) : Bool := 48 ≤ c.toNat && c.toNat ≤ 57

/-- The digits of a number, most significant first. -/
def natDigits (n : Nat) : List Char :=
  if n < 10 then [char n] else natDigits (n / 10) ++ [char (n % 10)]
termination_by n

/-- The number that a list of digits denotes. -/
def ofDigits (cs : List Char) : Nat := cs.foldl (fun n c => 10 * n + value c) 0

/-- The digits of a number, after a minus sign if it is negative. -/
def intDigits : Int → List Char
  | .ofNat n => natDigits n
  | .negSucc n => '-' :: natDigits (n + 1)

theorem value_char {d : Nat} (h : d < 10) : value (char d) = d := by
  have : ∀ d : Fin 10, value (char d) = d := by decide
  exact this ⟨d, h⟩

theorem isDigit_char {d : Nat} (h : d < 10) : isDigit (char d) = true := by
  have : ∀ d : Fin 10, isDigit (char d) = true := by decide
  exact this ⟨d, h⟩

/-- Writing a number and reading it gives it back. -/
theorem ofDigits_natDigits (n : Nat) : ofDigits (natDigits n) = n := by
  rw [natDigits]
  split
  · simp [ofDigits, value_char (by assumption)]
  · have := ofDigits_natDigits (n / 10)
    simp only [ofDigits, List.foldl_append, List.foldl_cons, List.foldl_nil] at this ⊢
    rw [this, value_char (by omega)]
    omega
termination_by n

theorem isDigit_of_mem_natDigits {n : Nat} {c : Char} (h : c ∈ natDigits n) :
    isDigit c = true := by
  rw [natDigits] at h
  split at h
  · simp only [List.mem_singleton] at h
    exact h ▸ isDigit_char (by assumption)
  · simp only [List.mem_append, List.mem_singleton] at h
    rcases h with h | rfl
    · exact isDigit_of_mem_natDigits h
    · exact isDigit_char (by omega)
termination_by n

theorem natDigits_ne_nil (n : Nat) : natDigits n ≠ [] := by
  rw [natDigits]
  split <;> simp

theorem intDigits_ne_nil (n : Int) : intDigits n ≠ [] := by
  cases n with
  | ofNat n => exact natDigits_ne_nil n
  | negSucc n => exact List.cons_ne_nil _ _

/-- Reads a whole number that may begin with a sign and is otherwise made of digits. -/
def readInt? (cs : List Char) : Option Int :=
  let (negative, ds) := match cs with
    | '-' :: r => (true, r)
    | '+' :: r => (false, r)
    | r => (false, r)
  if ds ≠ [] ∧ ds.all isDigit then
    some (if negative then -(ofDigits ds : Int) else ofDigits ds)
  else none

/-- A character of a written number is a digit or the sign. -/
theorem mem_intDigits {n : Int} {c : Char} (h : c ∈ intDigits n) : c = '-' ∨ isDigit c = true := by
  cases n with
  | ofNat n => exact .inr (isDigit_of_mem_natDigits h)
  | negSucc n =>
    rcases List.mem_cons.1 h with rfl | h
    · exact .inl rfl
    · exact .inr (isDigit_of_mem_natDigits h)

/-- Writing a number with its sign and reading it gives it back. -/
theorem readInt?_intDigits (n : Int) : readInt? (intDigits n) = some n := by
  have hread (m : Nat) : natDigits m ≠ [] ∧ (natDigits m).all isDigit = true :=
    ⟨natDigits_ne_nil m, List.all_eq_true.2 fun c hc => isDigit_of_mem_natDigits hc⟩
  cases n with
  | negSucc n =>
    rw [intDigits, readInt?, if_pos (hread (n + 1)), if_pos rfl, ofDigits_natDigits]
    rfl
  | ofNat n =>
    obtain ⟨d, ds, hds⟩ := List.exists_cons_of_ne_nil (natDigits_ne_nil n)
    have hd : isDigit d = true := isDigit_of_mem_natDigits (hds ▸ List.mem_cons_self)
    have hall := hread n
    have hn := ofDigits_natDigits n
    rw [hds] at hall hn
    rw [intDigits, hds, readInt?]
    · rw [if_pos hall, if_neg Bool.false_ne_true, hn]
      rfl
    -- the first digit is no sign
    · rintro r ⟨⟩
      cases hd
    · rintro r ⟨⟩
      cases hd

/-- Reads a whole number in a range. -/
def readIn? (low high : Int) (cs : List Char) : Option Int :=
  (readInt? cs).filter (fun n => low ≤ n && n ≤ high)

/-- A written number in the range is read back. -/
theorem readIn?_intDigits {low high n : Int} (hlow : low ≤ n) (hhigh : n ≤ high) :
    readIn? low high (intDigits n) = some n := by
  simp [readIn?, readInt?_intDigits, hlow, hhigh]

/-- Reads an integer of 32 bits with sign. -/
def readInt32? : List Char → Option Int := readIn? (-(pow2 31 : Int)) (pow2 31 - 1)

/-- Reads an integer of 64 bits with sign. -/
def readInt64? : List Char → Option Int := readIn? (-(pow2 63 : Int)) (pow2 63 - 1)

/-- Reads an integer of 64 bits without sign; a leading plus is allowed, a minus is not. -/
def readUInt64? (cs : List Char) : Option Int :=
  if cs.head? = some '-' then none else readIn? 0 (pow2 64 - 1) cs

end Enablement.Digits
