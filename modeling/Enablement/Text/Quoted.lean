/-!
# Quoted text — a quote inside is written twice

A text is put between single quotes with every quote in it doubled. Reading undoes the doubling and
refuses a quote that stands alone. The two are inverse to each other: reading accepts exactly what
writing produces (`unescape?_eq_some_iff`).
-/

namespace Enablement.Quoted

/-- Writes every quote twice. -/
def escape : List Char → List Char
  | [] => []
  | c :: r => if c = '\'' then '\'' :: '\'' :: escape r else c :: escape r

/-- Reads two quotes as one; a quote without a partner is refused. -/
def unescape? : List Char → Option (List Char)
  | [] => some []
  | '\'' :: r =>
    match r with
    | '\'' :: r' => (unescape? r').map ('\'' :: ·)
    | _ => none
  | c :: r => (unescape? r).map (c :: ·)

/-- Reading what was written gives the text back. -/
theorem unescape?_escape (cs : List Char) : unescape? (escape cs) = some cs := by
  induction cs with
  | nil => rfl
  | cons c r ih =>
    rw [escape]
    split
    · next hc => rw [unescape?, ih, hc, Option.map_some]
    · next hc =>
      rw [unescape?]
      · rw [ih, Option.map_some]
      · exact fun h => hc h

/-- What is read was written for what it is read as. -/
theorem eq_escape_of_unescape? {t s : List Char} (h : unescape? t = some s) : t = escape s := by
  fun_induction unescape? t generalizing s with
  | case1 =>
    cases h
    rfl
  | case2 r ih =>
    obtain ⟨s', hs', rfl⟩ := Option.map_eq_some_iff.1 h
    rw [escape, if_pos rfl, ← ih hs']
  | case3 => cases h
  | case4 c r hc ih =>
    obtain ⟨s', hs', rfl⟩ := Option.map_eq_some_iff.1 h
    rw [escape, if_neg hc, ← ih hs']

/-- **Reading accepts exactly what writing produces.** -/
theorem unescape?_eq_some_iff {t s : List Char} : unescape? t = some s ↔ t = escape s :=
  ⟨eq_escape_of_unescape?, fun h => h ▸ unescape?_escape s⟩

/-- The text between quotes. -/
def quote (cs : List Char) : List Char := '\'' :: (escape cs ++ ['\''])

end Enablement.Quoted
