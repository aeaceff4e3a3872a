import MoonBackend.Text.Property

/-!
# Classes of characters

Which characters count as blank, as a letter, as a decimal digit and as printable, and the
lower-case form of a character. ASCII is decided by comparison; everything above it by the tables
of `MoonBackend.Text.Property`.
-/

namespace MoonBackend.Text

def inRanges (ranges : Array (Nat × Nat)) (n : Nat) : Bool :=
  ranges.any fun r => r.1 ≤ n && n ≤ r.2

/-- White space: the ASCII blanks and line breaks, NEL, and the space characters of Unicode. -/
def isBlank (c : Char) : Bool :=
  let n := c.toNat
  (9 ≤ n && n ≤ 13) || n == 0x20 || n == 0x85 || n == 0xA0 || n == 0x1680
    || (0x2000 ≤ n && n ≤ 0x200A) || n == 0x2028 || n == 0x2029 || n == 0x202F
    || n == 0x205F || n == 0x3000

def isLetter (c : Char) : Bool :=
  c.isAlpha || (128 ≤ c.toNat && inRanges letterRanges c.toNat)

def isDigit (c : Char) : Bool :=
  c.isDigit || (128 ≤ c.toNat && inRanges digitRanges c.toNat)

/-- A character that is shown as itself: the space, and every letter, mark, number, punctuation
sign and symbol. -/
def isPrintable (c : Char) : Bool :=
  (0x20 ≤ c.toNat && c.toNat < 0x7F) || (128 ≤ c.toNat && inRanges printableRanges c.toNat)

def toLower (c : Char) : Char :=
  if c.toNat < 128 then c.toLower
  else
    match lowerRuns.find? fun r =>
        r.lo ≤ c.toNat && c.toNat ≤ r.hi && (c.toNat - r.lo) % r.stride == 0 with
    | some r => Char.ofNat ((c.toNat : Int) + r.shift).toNat
    | none => c

def lower (s : String) : String := String.ofList (s.toList.map toLower)

end MoonBackend.Text
