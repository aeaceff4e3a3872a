/-!
# Operators

The unary and binary operators of the language with their texts. Some operators can be written in
more than one way; the text is the first of them.
-/

namespace MoonBackend

inductive UnaryOp where
  | plus
  | minus
  | not
  deriving DecidableEq

inductive BinaryOp where
  | add | sub | mul | div
  | and | or
  | eq | ne | lt | le | gt | ge
  deriving DecidableEq

namespace UnaryOp

def all : List UnaryOp := [.plus, .minus, .not]

def text : UnaryOp → String
  | .plus => "+"
  | .minus => "-"
  | .not => "not"

def parse? (s : String) : Option UnaryOp :=
  if s == "!" then some .not else all.find? (·.text == s)

end UnaryOp

namespace BinaryOp

def all : List BinaryOp :=
  [.add, .sub, .mul, .div, .and, .or, .eq, .ne, .lt, .le, .gt, .ge]

def text : BinaryOp → String
  | .add => "+"
  | .sub => "-"
  | .mul => "*"
  | .div => "/"
  | .and => "and"
  | .or => "or"
  | .eq => "=="
  | .ne => "<>"
  | .lt => "<"
  | .le => "<="
  | .gt => ">"
  | .ge => ">="

def isRelational : BinaryOp → Bool
  | .eq | .ne | .lt | .le | .gt | .ge => true
  | _ => false

/-- An operator whose result is a truth value, 0 or 1. -/
def isTruth : BinaryOp → Bool
  | .and | .or => true
  | op => op.isRelational

def parse? (s : String) : Option BinaryOp :=
  if s == "&&" || s == "&" then some .and
  else if s == "||" || s == "|" then some .or
  else if s == "!=" then some .ne
  else all.find? (·.text == s)

end BinaryOp

end MoonBackend
