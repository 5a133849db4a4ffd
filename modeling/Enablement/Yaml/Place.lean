/-!
# Indented documents — places, breaks and gaps

An indented document may hold the characters that can be printed, and five characters break its
lines. All breaks but two are read as the same one. Between two words of a scalar there is a gap:
blanks of one line, which are kept, or line breaks, which are folded.
-/

namespace Enablement.Yaml

/-! ## Characters -/

/-- The separator of lines, which stays what it is where lines are folded. -/
def lineSeparator : Char := Char.ofNat 0x2028

/-- The separator of paragraphs, which stays what it is where lines are folded. -/
def paragraphSeparator : Char := Char.ofNat 0x2029

/-- The mark of byte order, which may stand at the start of a line. -/
def byteOrderMark : Char := Char.ofNat 0xFEFF

/-- The ranges of code points that may occur in a document. -/
def printableRanges : List (Nat × Nat) :=
  [(0x9, 0xA), (0xD, 0xD), (0x20, 0x7E), (0x85, 0x85), (0xA0, 0xD7FF), (0xE000, 0xFFFD),
    (0x10000, 0x10FFFF)]

/-- Whether a character may occur in a document. -/
def isPrintable (c : Char) : Bool :=
  printableRanges.any (fun r => r.1 ≤ c.toNat && c.toNat ≤ r.2)

/-- A text with one character for each break: carriage returns, alone or before a line feed, and
next lines become line feeds. -/
def unifyBreaks : List Char → List Char
  | '\r' :: '\n' :: r => '\n' :: unifyBreaks r
  | c :: r => (if c = '\r' || c = Char.ofNat 0x85 then '\n' else c) :: unifyBreaks r
  | [] => []

/-- Whether a character of a text with unified breaks is a break. -/
def isBreak (c : Char) : Bool := c == '\n' || c == lineSeparator || c == paragraphSeparator

/-- Whether a character separates words on a line. -/
def isBlank (c : Char) : Bool := c == ' ' || c == '\t'

/-- Whether a text begins with a blank, a break or its end. -/
def spaceAhead : List Char → Bool
  | [] => true
  | c :: _ => isBlank c || isBreak c

/-- Whether a text begins with the mark that starts a document. -/
def startMarkAhead : List Char → Bool
  | '-' :: '-' :: '-' :: r => spaceAhead r
  | _ => false

/-- Whether a text begins with the mark that ends a document. -/
def endMarkAhead : List Char → Bool
  | '.' :: '.' :: '.' :: r => spaceAhead r
  | _ => false

/-- Whether a character separates or encloses between brackets. -/
def isFlowMark (c : Char) : Bool := c == ',' || c == '[' || c == ']' || c == '{' || c == '}'

/-! ## Places -/

/-- A place in a text. -/
structure Place where
  /-- The bytes before it. -/
  offset : Nat := 0
  line : Nat := 0
  col : Nat := 0
  deriving DecidableEq, Repr

namespace Place

/-- Behind a character of the line. -/
def next (p : Place) (c : Char) : Place :=
  { p with offset := p.offset + c.utf8Size, col := p.col + 1 }

/-- Behind a break. -/
def newLine (p : Place) (c : Char) : Place :=
  { offset := p.offset + c.utf8Size, line := p.line + 1, col := 0 }

end Place

/-! ## Gaps -/

/-- What stands between two words of a scalar. -/
inductive Gap where
  /-- Blanks of one line, the last one first. -/
  | blanks (cs : List Char)
  /-- The first break, unless it is escaped, and the others, the last one first. -/
  | breaks (first : Option Char) (others : List Char)

namespace Gap

/-- Nothing in between. -/
def none : Gap := .blanks []

/-- A gap with one more blank. Blanks around breaks are dropped. -/
def addBlank (c : Char) : Gap → Gap
  | .blanks cs => .blanks (c :: cs)
  | .breaks first others => .breaks first others

/-- A gap with one more break. -/
def addBreak (c : Char) : Gap → Gap
  | .blanks _ => .breaks (some c) []
  | .breaks first others => .breaks first (c :: others)

/-- Whether there is a break in a gap. -/
def hasBreak : Gap → Bool
  | .blanks _ => false
  | .breaks _ _ => true

def isEmpty : Gap → Bool
  | .blanks cs => cs.isEmpty
  | .breaks _ _ => false

/-- What a gap reads as. A single line feed is a space; of several the first one is dropped. -/
def text : Gap → List Char
  | .blanks cs => cs.reverse
  | .breaks (some '\n') [] => [' ']
  | .breaks (some '\n') others => others.reverse
  | .breaks first others => first.toList ++ others.reverse

end Gap

end Enablement.Yaml
