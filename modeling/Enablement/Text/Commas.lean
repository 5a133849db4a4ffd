/-!
# Texts cut at commas

The parts of a text between its commas, in order. A text has one part more than commas.
-/

namespace Enablement.Commas

/-- The parts of a text between its commas. -/
def split : List Char → List (List Char)
  | [] => [[]]
  | c :: r =>
    if c = ',' then [] :: split r
    else
      match split r with
      | p :: ps => (c :: p) :: ps
      | [] => [[c]]

end Enablement.Commas
