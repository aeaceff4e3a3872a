import MoonBackend.Yaml.Node
import MoonBackend.Text.Numeral

/-!
# What a scalar stands for

A plain scalar may be read as null, as a truth value or as a number; a quoted one is text. Every
scalar can be read as text.
-/

namespace MoonBackend.Yaml

open MoonBackend.Text

/-- The plain words for null; the empty one stands for a value left out. -/
def isNullWord (s : String) : Bool := ["", "~", "null", "Null", "NULL"].contains s

/-- The word in lower case, capitalised or in upper case. -/
def isSpelling (word s : String) : Bool :=
  s == word || s == word.capitalize || s == word.toUpper

/-- A truth value. `true` and `false` have to be plain, the other words may be quoted. -/
def boolOf? (isQuoted : Bool) (s : String) : Option Bool :=
  if ["y", "yes", "on"].any (isSpelling · s) then some true
  else if ["n", "no", "off"].any (isSpelling · s) then some false
  else if isQuoted then none
  else if isSpelling "true" s then some true
  else if isSpelling "false" s then some false
  else none

/-- A decimal fraction `± coefficient · 10 ^ exponent`. -/
structure Fraction where
  isNegative : Bool
  coefficient : Nat
  exponent : Int

namespace Fraction

def exponentOf? : List Char → Option Int
  | [] => some 0
  | c :: cs => if c == 'e' || c == 'E' then signed? natDecimal? cs else none

/-- Reads digits with at most one point among them and an optional exponent. A point in front needs
a digit after it. -/
def unsigned? (isNegative : Bool) (cs : List Char) : Option Fraction :=
  let whole := cs.takeWhile Char.isDigit
  let rest := cs.dropWhile Char.isDigit
  let (frac, rest) :=
    match rest with
    | '.' :: ds => (ds.takeWhile Char.isDigit, ds.dropWhile Char.isDigit)
    | _ => ([], rest)
  if whole.isEmpty && frac.isEmpty then none
  else do
    let coefficient ← digits? 10 (whole ++ frac)
    let exponent ← exponentOf? rest
    return ⟨isNegative, coefficient, exponent - frac.length⟩

def parse? : List Char → Option Fraction
  | '-' :: cs => unsigned? true cs
  | '+' :: cs => unsigned? false cs
  | cs => unsigned? false cs

/-- Rounds the quotient to the nearest number of 53 significant bits, ties to the even one, and
drops what is left behind the point. -/
def roundedWhole (num den : Nat) : Nat :=
  let q := num / den
  if q == 0 then
    if den * (Nat.pow 2 54 - 1) ≤ num * Nat.pow 2 54 then 1 else 0
  else
    let bits := q.log2 + 1
    let up := Nat.pow 2 (53 - bits)
    let down := Nat.pow 2 (bits - 53)
    let n := num * up
    let d := den * down
    let r := n / d
    let twice := 2 * (n % d)
    let r := if d < twice || (d == twice && r % 2 == 1) then r + 1 else r
    r * down / up

/-- The whole part of the fraction as a word, after rounding to 53 significant bits. A value past
the upper end of the words is refused, one past the lower end becomes the least word, and so does
two to the power of 63. A value that no double can hold is refused too. -/
def toWord? (f : Fraction) : Option Int64 :=
  let size := (Nat.toDigits 10 f.coefficient).length + f.exponent
  if f.coefficient == 0 || size < -400 then some 0
  else if 400 < size then none
  else
    let num := if f.exponent < 0 then f.coefficient else f.coefficient * Nat.pow 10 f.exponent.toNat
    let den := if f.exponent < 0 then Nat.pow 10 (-f.exponent).toNat else 1
    let whole := roundedWhole num den
    if den * (Nat.pow 2 1024 - Nat.pow 2 970) ≤ num then none
    else if f.isNegative then
      some (if Nat.pow 2 63 ≤ whole then Int64.minValue else Int64.ofInt (-(whole : Int)))
    else if Nat.pow 2 63 < whole then none
    else some (Int64.ofNat whole)

end Fraction

/-- A number after the marks `0b` and `0o`, which may carry a sign of its own. -/
def markedWord? (cs : List Char) : Option Int64 :=
  let based (base : Nat) (ds : List Char) : Option Int64 :=
    let unsigned? (ds : List Char) := if ds.isEmpty then none else digits? base ds
    ((signed? unsigned? ds).bind (fitting? 64)).map Int64.ofInt
  match cs with
  | '0' :: 'b' :: ds => based 2 ds
  | '-' :: '0' :: 'b' :: ds => based 2 ('-' :: ds)
  | '0' :: 'o' :: ds => based 8 ds
  | '-' :: '0' :: 'o' :: ds => based 8 ('-' :: ds)
  | _ => none

/-- A number that begins with a digit or a sign. Underscores do not count. -/
def numberWord? (cs : List Char) : Option Int64 :=
  let plain := cs.filter (· != '_')
  match literal64? plain with
  | some n => some n
  | none =>
    if ((natLiteral? plain).any (· < Nat.pow 2 64)) then none
    else
      match (Fraction.parse? plain).bind Fraction.toWord? with
      | some n => some n
      | none => if (Fraction.parse? plain).isSome then none else markedWord? plain

/-- The word that a plain scalar stands for where an integer is wanted: an integer literal, or a
decimal fraction cut to its whole part. -/
def wordOf? (s : String) : Option Int64 :=
  match s.toList with
  | [] => none
  | c :: cs =>
    if ["-.inf", "-.Inf", "-.INF"].contains s then some Int64.minValue
    else if c == '.' then
      if cs.contains '_' && !separated (c :: cs) then none
      else (Fraction.parse? ((c :: cs).filter (· != '_'))).bind Fraction.toWord?
    else if c.isDigit || c == '+' || c == '-' then numberWord? (c :: cs)
    else none

end MoonBackend.Yaml
