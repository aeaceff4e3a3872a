import MoonBackend.Text.Numeral
import MoonBackend.Text.Words

/-!
# Lines of an assembly text

A line is an optional label in the first column, an optional instruction or directive with operands
between commas, and an optional comment after `%`. Blanks inside the operands do not count.
-/

namespace MoonBackend.Assembly

open Text

inductive AssemblyError where
  | invalidLabel (label : String) (line : Nat)
  | emptyOperand (line : Nat)
  | reserveOperands (line : Nat)
  | badReserve (line : Nat) (size : String)
  | unknownInstruction (line : Nat) (name : String)
  | originOperands (line : Nat)
  | badOrigin (line : Nat) (value : String)
  | originBackward (line : Nat)
  | duplicateLabel (label : String) (line : Nat)
  | secondEntry (line : Nat)
  | byteRange (line : Nat) (value : String)
  | operandCount (name : String) (count line : Nat)
  | notAligned (line : Nat)
  | invalidRegister (token : String) (line : Nat)
  | notIndexed (line : Nat) (token : String)
  | immediateRange (line : Nat) (token : String)
  | undefinedLabel (label : String) (line : Nat)
  | invalidImmediate (token : String) (line : Nat)
  deriving DecidableEq

def AssemblyError.message : AssemblyError → String
  | .invalidLabel label line => "invalid label '" ++ label ++ "' on line " ++ decimal line
  | .emptyOperand line => "empty operand on line " ++ decimal line
  | .reserveOperands line => "res expects 1 operand on line " ++ decimal line
  | .badReserve line size => "invalid res size on line " ++ decimal line ++ ": " ++ size
  | .unknownInstruction line name =>
    "unknown instruction on line " ++ decimal line ++ ": " ++ name
  | .originOperands line => "org expects exactly one operand on line " ++ decimal line
  | .badOrigin line value => "invalid org value on line " ++ decimal line ++ ": " ++ value
  | .originBackward line => "cannot move origin backward on line " ++ decimal line
  | .duplicateLabel label line => "duplicate label '" ++ label ++ "' on line " ++ decimal line
  | .secondEntry line => "second entry on line " ++ decimal line
  | .byteRange line value => "byte out of range on line " ++ decimal line ++ ": " ++ value
  | .operandCount name count line =>
    name ++ " expects " ++ decimal count ++ " operands on line " ++ decimal line
  | .notAligned line => "instruction on line " ++ decimal line ++ " is not word aligned"
  | .invalidRegister token line => "invalid register '" ++ token ++ "' on line " ++ decimal line
  | .notIndexed line token => "expected K(Rj) on line " ++ decimal line ++ ": " ++ token
  | .immediateRange line token =>
    "immediate out of range on line " ++ decimal line ++ ": " ++ token
  | .undefinedLabel label line => "undefined label '" ++ label ++ "' on line " ++ decimal line
  | .invalidImmediate token line => "invalid immediate '" ++ token ++ "' on line " ++ decimal line

/-- A line taken apart. A line without label or without instruction has the empty text there. -/
structure SourceLine where
  number : Nat
  label : String := ""
  mnemonic : String := ""
  operands : List String := []
  deriving DecidableEq

/-- A letter or underscore, followed by letters, digits and underscores. -/
def isIdentifier : List Char → Bool
  | [] => false
  | c :: cs => (isLetter c || c == '_') && cs.all fun c => isLetter c || isDigit c || c == '_'

/-- The operands between commas, none of which may be empty. -/
def parseOperands (number : Nat) (rest : List Char) : Except AssemblyError (List String) :=
  if rest.isEmpty then .ok []
  else
    let pieces := splitWhen (· == ',') rest
    if pieces.any List.isEmpty then .error (.emptyOperand number)
    else .ok (pieces.map String.ofList)

def parseItem (number : Nat) (label : String) : List (List Char) →
    Except AssemblyError SourceLine
  | [] => .ok { number := number, label := label }
  | name :: rest => do
    let operands ← parseOperands number rest.flatten
    return ⟨number, label, lower (String.ofList name), operands⟩

def parseLine (number : Nat) (raw : List Char) : Except AssemblyError SourceLine :=
  let raw := raw.takeWhile (· != '%')
  match raw, words raw with
  | c :: _, first :: rest =>
    if c == ' ' || c == '\t' then parseItem number "" (first :: rest)
    else if isIdentifier first then parseItem number (String.ofList first) rest
    else .error (.invalidLabel (String.ofList first) number)
  | _, _ => .ok { number := number }

/-- Takes lines apart, the first of which has the given number; `done` holds the lines before, the
last one first. -/
def parseLinesFrom (number : Nat) (done : List SourceLine) :
    List (List Char) → Except AssemblyError (List SourceLine)
  | [] => .ok done.reverse
  | raw :: rest =>
    match parseLine number raw with
    | .error e => .error e
    | .ok line => parseLinesFrom (number + 1) (line :: done) rest

def parseLines (text : String) : Except AssemblyError (List SourceLine) :=
  parseLinesFrom 1 [] (lines text.toList)

end MoonBackend.Assembly
