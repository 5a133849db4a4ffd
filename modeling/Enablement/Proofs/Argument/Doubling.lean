import Enablement.Argument
import Mathlib.Algebra.Ring.Parity
/-!
# Arguments — which texts have their quotes doubled

The reader of quoted text goes from left to right and takes two quotes at a time, so it never looks
at a run of quotes as a whole. Yet whether it gets through is told from the runs alone: each has to
be of even length (`isSome_unescape?_iff`). A pair at the front leaves the lengths of all runs as
they are or shortens the first by two, and a quote without a partner is a run of length one.
-/

namespace Enablement

namespace Quoted

variable {t before after : List Char} {c : Char} {n : ℕ}

/-! ## Runs of quotes -/

/-- A number of quotes, perhaps none, stand in a row in a text, and neither in front of them nor
behind them is another one. -/
structure Run (t before : List Char) (n : ℕ) (after : List Char) : Prop where
  split : t = before ++ List.replicate n '\'' ++ after
  front : before.getLast? ≠ some '\''
  back : after.head? ≠ some '\''

/-- Every run of quotes is of even length. -/
def EvenRuns (t : List Char) : Prop := ∀ before n after, Run t before n after → Even n

/-- A run that does not begin a text is a run of what is behind the first character. -/
theorem Run.of_cons {b : Char} (h : Run (c :: t) (b :: before) n after) :
    Run t before n after := by
  obtain ⟨hsplit, hfront, hback⟩ := h
  rw [List.cons_append, List.cons_append] at hsplit
  refine ⟨(List.cons.inj hsplit).2, fun hlast => hfront ?_, hback⟩
  rw [List.getLast?_cons, hlast]
  rfl

/-- And the other way round, unless it would be longer by that character. -/
theorem Run.cons (h : Run t before n after) (hc : before = [] → c ≠ '\'') :
    Run (c :: t) (c :: before) n after := by
  obtain ⟨hsplit, hfront, hback⟩ := h
  refine ⟨by rw [hsplit, List.cons_append, List.cons_append], fun hlast => ?_, hback⟩
  cases before with
  | nil => exact hc rfl (Option.some.inj hlast)
  | cons b before => exact hfront (List.getLast?_cons_cons ▸ hlast)

theorem evenRuns_nil : EvenRuns [] := by
  intro before n after h
  have hlength := congrArg List.length h.split
  simp only [List.length_nil, List.length_append, List.length_replicate] at hlength
  have hn : n = 0 := by omega
  rw [hn]
  exact Even.zero

/-- Any other character in front changes no run. -/
theorem evenRuns_cons (hc : c ≠ '\'') : EvenRuns (c :: t) ↔ EvenRuns t := by
  constructor
  · intro h before n after hrun
    exact h _ n after (hrun.cons fun _ => hc)
  · intro h before n after hrun
    cases before with
    | cons b before => exact h before n after hrun.of_cons
    | nil =>
      -- a run at the very front would begin with that character
      cases n with
      | zero => exact Even.zero
      | succ n => exact absurd (List.cons.inj hrun.split).1 hc

/-- Two quotes in front are two more in the first run. -/
theorem evenRuns_pair : EvenRuns ('\'' :: '\'' :: t) ↔ EvenRuns t := by
  constructor
  · intro h before n after hrun
    cases before with
    | nil =>
      have hlonger : Run ('\'' :: '\'' :: t) [] (n + 2) after :=
        ⟨by rw [hrun.split]; rfl, nofun, hrun.back⟩
      have heven := h [] (n + 2) after hlonger
      exact (Nat.even_add.1 heven).2 even_two
    | cons b before =>
      have hinner : Run ('\'' :: t) ('\'' :: b :: before) n after := hrun.cons nofun
      exact h _ n after (hinner.cons nofun)
  · intro h before n after hrun
    match before, n with
    | [], 0 => exact Even.zero
    | [], 1 =>
      -- the second quote would be behind the run
      have hafter : '\'' :: t = after := (List.cons.inj hrun.split).2
      exact absurd (hafter ▸ rfl) hrun.back
    | [], n + 2 =>
      have hshorter : Run t [] n after :=
        ⟨(List.cons.inj (List.cons.inj hrun.split).2).2, nofun, hrun.back⟩
      exact (h [] n after hshorter).add even_two
    | [b], n =>
      have hb : '\'' = b := (List.cons.inj hrun.split).1
      exact absurd (hb ▸ rfl) hrun.front
    | b :: b' :: before, n => exact h before n after hrun.of_cons.of_cons

/-- A quote without a partner is a run of its own. -/
theorem not_evenRuns_lone (h : t.head? ≠ some '\'') : ¬ EvenRuns ('\'' :: t) := by
  intro heven
  have hone : Even 1 := heven [] 1 t ⟨rfl, nofun, h⟩
  exact Nat.not_even_one hone

/-- **A text is read exactly if all its runs of quotes are of even length.** -/
theorem isSome_unescape?_iff (t : List Char) : (unescape? t).isSome = true ↔ EvenRuns t := by
  fun_induction unescape? t with
  | case1 => exact iff_of_true rfl evenRuns_nil
  | case2 r ih => rw [Option.isSome_map, ih, evenRuns_pair]
  | case3 r hr =>
    refine iff_of_false Bool.false_ne_true (not_evenRuns_lone fun hhead => ?_)
    obtain ⟨r', rfl⟩ := List.head?_eq_some_iff.1 hhead
    exact hr r' rfl
  | case4 c r hc ih => rw [Option.isSome_map, ih, evenRuns_cons hc]

end Quoted

namespace Argument

/-- **Reading quoted text is the exact inverse of doubling the quotes.** A text is read exactly if
all its runs of quotes are of even length; what it is read as gives the text again when its quotes
are doubled; any text whose quotes are doubled is read back; and where reading fails, the fault
holds the whole text. -/
theorem unescape_inverts_doubling :
    (∀ t : String, (∃ s, unescape t.toList = .ok s) ↔ Quoted.EvenRuns t.toList) ∧
      (∀ t s : String, unescape t.toList = .ok s ↔ t.toList = Quoted.escape s.toList) ∧
      (∀ s : String, unescape (Quoted.escape s.toList) = .ok s) ∧
      ∀ (t : String) (f : Fault),
        unescape t.toList = .error f ↔ f = .notEscaped t ∧ ¬ Quoted.EvenRuns t.toList := by
  have hok : ∀ (cs : List Char) (s : String),
      unescape cs = .ok s ↔ cs = Quoted.escape s.toList := by
    intro cs s
    rw [← Quoted.unescape?_eq_some_iff, unescape]
    cases Quoted.unescape? cs with
    | none => exact ⟨nofun, nofun⟩
    | some r =>
      rw [Except.ok.injEq, Option.some.injEq]
      constructor
      · rintro rfl
        exact String.toList_ofList.symm
      · rintro rfl
        exact String.ofList_toList
  have herror : ∀ (t : String) (f : Fault), unescape t.toList = .error f ↔
      f = .notEscaped t ∧ ¬ Quoted.EvenRuns t.toList := by
    intro t f
    rw [← Quoted.isSome_unescape?_iff, unescape]
    cases Quoted.unescape? t.toList with
    | none => simp [eq_comm]
    | some r => simp
  refine ⟨fun t => ?_, fun t s => hok t.toList s, fun s => (hok _ s).2 rfl, herror⟩
  rw [← Quoted.isSome_unescape?_iff, unescape]
  cases Quoted.unescape? t.toList <;> simp

end Argument

end Enablement
