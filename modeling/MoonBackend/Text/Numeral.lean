/-!
# Written integers

Two readings of an integer. A *decimal* is an optional sign and decimal digits. A *literal* may
also carry a base mark (`0b`, `0o`, `0x`, or a leading zero for octal) and single underscores
between its digits.
-/

namespace MoonBackend.Text

def digitValue? (c : Char) : Option Nat :=
  if '0' ≤ c ∧ c ≤ '9' then some (c.toNat - '0'.toNat)
  else if 'a' ≤ c ∧ c ≤ 'z' then some (c.toNat - 'a'.toNat + 10)
  else if 'A' ≤ c ∧ c ≤ 'Z' then some (c.toNat - 'A'.toNat + 10)
  else none

/-- The value of a digit string read from `acc` onwards; refuses what is no digit of the base. -/
def digitsFrom? (base : Nat) (acc : Nat) : List Char → Option Nat
  | [] => some acc
  | c :: cs =>
    match digitValue? c with
    | some d => if d < base then digitsFrom? base (acc * base + d) cs else none
    | none => none

def digits? (base : Nat) (cs : List Char) : Option Nat := digitsFrom? base 0 cs

inductive Mark where
  | other
  | digit
  | underscore
  deriving DecidableEq

/-- Whether every underscore stands between two digits, given what came before. -/
def separatedFrom (isDigit : Char → Bool) : Mark → List Char → Bool
  | last, [] => last != .underscore
  | last, c :: cs =>
    if isDigit c then separatedFrom isDigit .digit cs
    else if c == '_' then last == .digit && separatedFrom isDigit .underscore cs
    else last != .underscore && separatedFrom isDigit .other cs

def baseMark? (c : Char) : Option Nat :=
  if c == 'b' || c == 'B' then some 2
  else if c == 'o' || c == 'O' then some 8
  else if c == 'x' || c == 'X' then some 16
  else none

/-- Whether the underscores of an unsigned literal are placed as they may be. A base mark counts
as a digit. -/
def separated : List Char → Bool
  | '0' :: c :: cs =>
    match baseMark? c with
    | some b =>
      separatedFrom (fun d => d.isDigit || (b == 16 && (digitValue? d).any (· < 16))) .digit cs
    | none => separatedFrom Char.isDigit .other ('0' :: c :: cs)
  | cs => separatedFrom Char.isDigit .other cs

def natLiteral? (cs : List Char) : Option Nat :=
  if cs.contains '_' && !separated cs then none
  else
    let plain (base : Nat) (ds : List Char) := digits? base (ds.filter (· != '_'))
    match cs with
    | [] => none
    | '0' :: c :: d :: ds =>
      match baseMark? c with
      | some base => plain base (d :: ds)
      | none => plain 8 (c :: d :: ds)
    | '0' :: ds => plain 8 ds
    | ds => plain 10 ds

def natDecimal? (cs : List Char) : Option Nat :=
  if cs.isEmpty then none else digits? 10 cs

def signed? (unsigned? : List Char → Option Nat) : List Char → Option Int
  | '-' :: cs => (unsigned? cs).map fun n => -(n : Int)
  | '+' :: cs => (unsigned? cs).map fun n => (n : Int)
  | cs => (unsigned? cs).map fun n => (n : Int)

/-- The first number above those that a signed word of the given width can hold. -/
def wordBound (bits : Nat) : Int := Nat.pow 2 (bits - 1)

def fitting? (bits : Nat) (n : Int) : Option Int :=
  if -wordBound bits ≤ n ∧ n < wordBound bits then some n else none

theorem fitting?_eq_some_iff {bits : Nat} {n k : Int} :
    fitting? bits n = some k ↔ n = k ∧ -wordBound bits ≤ n ∧ n < wordBound bits := by
  unfold fitting?
  split
  · rename_i h
    simp [h]
  · rename_i h
    simp [h]

def decimal64? (cs : List Char) : Option Int64 :=
  ((signed? natDecimal? cs).bind (fitting? 64)).map Int64.ofInt

def decimal32? (cs : List Char) : Option Int32 :=
  ((signed? natDecimal? cs).bind (fitting? 32)).map Int32.ofInt

def literal64? (cs : List Char) : Option Int64 :=
  ((signed? natLiteral? cs).bind (fitting? 64)).map Int64.ofInt

def literal32? (cs : List Char) : Option Int32 :=
  ((signed? natLiteral? cs).bind (fitting? 32)).map Int32.ofInt

def decimal (n : Int) : String :=
  match n with
  | .ofNat k => String.ofList (Nat.toDigits 10 k)
  | .negSucc k => String.ofList ('-' :: Nat.toDigits 10 (k + 1))

/-- The name of the `n`-th of the listed things, or the label and the number when there is none. -/
def nameAt (label : String) (names : List String) (n : Int) : String :=
  match (if n < 0 then none else names[n.toNat]?) with
  | some name => name
  | none => label ++ "(" ++ decimal n ++ ")"

end MoonBackend.Text
