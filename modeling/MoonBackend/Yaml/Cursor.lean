/-!
# A place in a text

The characters still to be read together with where they stand, and the classes of characters
that decide where a token ends. A carriage return followed by a line feed is one line break.
-/

namespace MoonBackend.Yaml

/-- Where a character stands: its number in the text, its line and its column, all from zero. -/
structure Pos where
  index : Nat
  line : Nat
  column : Nat
  deriving DecidableEq

namespace Pos

def start : Pos := ⟨0, 0, 0⟩

def next (p : Pos) (n : Nat) : Pos := ⟨p.index + n, p.line, p.column + n⟩

def newline (p : Pos) (n : Nat) : Pos := ⟨p.index + n, p.line + 1, 0⟩

end Pos

def isSpace (c : Char) : Bool := c == ' ' || c == '\t'

def isBreak (c : Char) : Bool :=
  c == '\n' || c == '\r' || c == '\u0085' || c == '\u2028' || c == '\u2029'

/-- The character that a line break contributes to a scalar: the two separators stand for
themselves, every other break for a line feed. -/
def breakChar (c : Char) : Char := if c == '\u2028' || c == '\u2029' then c else '\n'

def atBlank : List Char → Bool
  | [] => true
  | c :: _ => isSpace c || isBreak c

/-- Whether the text goes on with `---` or `...`, standing alone. -/
def atDocumentMark : List Char → Bool
  | '-' :: '-' :: '-' :: cs => atBlank cs
  | '.' :: '.' :: '.' :: cs => atBlank cs
  | _ => false

def isAllowed (c : Char) : Bool :=
  let n := c.toNat
  n == 9 || n == 10 || n == 13 || (0x20 ≤ n && n ≤ 0x7E) || n == 0x85
    || (0xA0 ≤ n && n ≤ 0xFFFD) || 0x10000 ≤ n

end MoonBackend.Yaml
