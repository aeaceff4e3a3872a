import MoonBackend.Text.Character

/-!
# Text as bytes

The encoding of characters in bytes, and blanks around a text that is given by its bytes and need
not be well encoded.
-/

namespace MoonBackend.Text

def charBytes (c : Char) : List UInt8 := c.toString.toUTF8.toList

def textBytes (s : String) : List UInt8 := s.toUTF8.toList

def blanks : List Char :=
  [9, 10, 11, 12, 13, 0x20, 0x85, 0xA0, 0x1680, 0x2000, 0x2001, 0x2002, 0x2003, 0x2004, 0x2005,
    0x2006, 0x2007, 0x2008, 0x2009, 0x200A, 0x2028, 0x2029, 0x202F, 0x205F, 0x3000].map Char.ofNat

/-- The bytes without the ones in front that one of the pieces is made of. `fuel` bounds the number
of pieces. -/
def dropPieces (pieces : List (List UInt8)) : Nat → List UInt8 → List UInt8
  | 0, bs => bs
  | fuel + 1, bs =>
    match pieces.find? fun p => p.isPrefixOf bs with
    | some p => dropPieces pieces fuel (bs.drop p.length)
    | none => bs

def trimBytes (bs : List UInt8) : List UInt8 :=
  let pieces := blanks.map charBytes
  let front := dropPieces pieces bs.length bs
  (dropPieces (pieces.map List.reverse) front.length front.reverse).reverse

end MoonBackend.Text
