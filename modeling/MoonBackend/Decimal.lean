import MoonBackend.Text.Numeral
import MoonBackend.Text.Quoted

/-!
# Two-word decimal floats

A decimal float is a signed mantissa and an exponent that says how many digits of the mantissa
stand before the decimal point: `12.345` is mantissa 12345 with exponent 2, `0.05` is mantissa 5
with exponent -1. All arithmetic is on 64-bit words and wraps. Section 4.4 of
the specification.
-/

namespace MoonBackend

open Text

/-- A decimal float. -/
structure Decimal where
  mantissa : Int64
  exponent : Int64
  deriving DecidableEq

inductive DecimalError where
  | malformed (text : String)
  | outOfRange (text : String)
  deriving DecidableEq

def DecimalError.message : DecimalError → String
  | .malformed text => "malformed float literal " ++ quoted text
  | .outOfRange text => "float literal " ++ quoted text ++ ": mantissa out of range"

namespace Decimal

def natDigits (n : Nat) : Nat :=
  if n < 10 then 1 else natDigits (n / 10) + 1

/-- The number of decimal digits of the absolute value of a word. The least word, whose absolute
value wraps to itself, counts as one digit. -/
def digits (m : Int64) : Int64 :=
  let a := if m < 0 then -m else m
  Int64.ofNat (natDigits a.toInt.toNat)

/-- Reads a literal: an optional minus sign, then digits with at most one point among them.
Leading zeros do not count as digits of the mantissa, so the exponent drops with them. -/
def parse (text : String) : Except DecimalError Decimal :=
  let cs := text.toList
  let negative := cs.head? == some '-'
  let body := if negative then cs.tail else cs
  let whole := body.takeWhile (· != '.')
  let frac := (body.dropWhile (· != '.')).drop 1
  let all := whole ++ frac
  if all.isEmpty || !all.all Char.isDigit then .error (.malformed text)
  else
    let stripped := all.dropWhile (· == '0')
    let kept := if stripped.isEmpty then ['0'] else stripped
    let lost := all.length - kept.length
    match (natDecimal? kept).bind fun n => fitting? 32 n with
    | none => .error (.outOfRange text)
    | some m =>
      .ok ⟨Int64.ofInt (if negative then -m else m), Int64.ofInt ((whole.length : Int) - lost)⟩

/-- The factor by which both mantissas are scaled before they are summed. -/
def headroom : Int64 := 100

/-- The word multiplied `k` times by ten. From sixty-four factors on the product is zero in any
case. -/
def widen (m : Int64) (k : Nat) : Int64 := m * Int64.ofNat (Nat.pow 10 (min k 64))

/-- Divides a nonzero word by ten as long as it goes evenly, and counts the divisions. Twenty
rounds are enough for every word. -/
def trimZeros : Nat → Int64 → Int64 → Int64 × Int64
  | 0, sum, count => (sum, count)
  | rounds + 1, sum, count =>
    if sum % 10 == 0 then trimZeros rounds (sum / 10) (count + 1) else (sum, count)

/-- The sum of two decimals. The operand with the larger exponent, the right one on a tie, is
aligned with the other by widening the narrower mantissa. A zero sum takes the negated exponent
that was stored before; any other sum loses its trailing zeros. -/
def combine (l r : Decimal) (stale : Int64) : Decimal :=
  let (big, small) := if r.exponent < l.exponent then (l, r) else (r, l)
  let bigWidth := digits big.mantissa
  let smallWidth := digits small.mantissa + (big.exponent - small.exponent)
  let width := if bigWidth < smallWidth then smallWidth else bigWidth
  let bm := widen big.mantissa (width.toInt - bigWidth.toInt).toNat
  let sm := widen small.mantissa (width.toInt - smallWidth.toInt).toNat
  let sum := bm * headroom + sm * headroom
  if sum == 0 then ⟨0, -stale⟩
  else
    let (m, removed) := trimZeros 20 sum 0
    ⟨m, big.exponent + digits m - width - (2 - removed)⟩

/-- `l + r`, where `stale` is the exponent that the destination held before. -/
def add (l r : Decimal) (stale : Int64) : Decimal := combine l r stale

def sub (l r : Decimal) (stale : Int64) : Decimal := combine l ⟨-r.mantissa, r.exponent⟩ stale

/-- The text that a write statement prints: mantissa, `e`, exponent. -/
def text (v : Decimal) : String :=
  decimal v.mantissa.toInt ++ "e" ++ decimal v.exponent.toInt

/-- A power of ten as a product of two of its factors: one whose exponent is a multiple of 32 and
one whose exponent is below 32. -/
def powerOfTen (n : Int) : Float :=
  if n > 308 then 1.0 / 0.0
  else if n ≥ 0 then
    let k := n.toNat
    Float.ofScientific 1 false (32 * (k / 32)) * Float.ofScientific 1 false (k % 32)
  else if n ≥ -323 then
    let k := (-n).toNat
    Float.ofScientific 1 true (32 * (k / 32)) / Float.ofScientific 1 false (k % 32)
  else 0.0

/-- The nearest machine float to the mantissa, scaled by the power of ten that the exponent asks
for. -/
def toFloat (v : Decimal) : Float :=
  v.mantissa.toFloat * powerOfTen (v.exponent - digits v.mantissa).toInt

end Decimal

end MoonBackend
