import MoonBackend.Text.Numeral
import MoonBackend.Text.Quoted
import MoonBackend.Text.Words

/-!
# Types

A type is a base with a list of array dimensions, outermost first. Its text is the name of the
base followed by the dimensions in brackets; `Ty.parse` reads such a text back and also accepts
`int` and `bool`, blanks around the text and around each dimension.
-/

namespace MoonBackend

open Text

/-- What one element of a type is. -/
inductive Base where
  | void
  | integer
  | float
  | boolean
  | object (className : String)
  deriving DecidableEq, Inhabited

structure Ty where
  base : Base
  dims : List Int64
  deriving DecidableEq, Inhabited

inductive TypeError where
  | expectedBracket (text : String)
  | unterminated (text : String)
  | badDimension (text : String)
  | emptyName
  deriving DecidableEq

def TypeError.message : TypeError → String
  | .expectedBracket text => "type " ++ quoted text ++ ": expected '['"
  | .unterminated text => "type " ++ quoted text ++ ": unterminated dimension"
  | .badDimension text => "type " ++ quoted text ++ ": dimension must be an integer literal"
  | .emptyName => "empty type name"

namespace Base

/-- The name of a base; a class stands for itself. -/
def text : Base → String
  | .void => "void"
  | .integer => "integer"
  | .float => "float"
  | .boolean => "boolean"
  | .object name => name

def kindNames : List String := ["void", "integer", "float", "boolean", "class"]

def kind : Base → String
  | .object _ => "class"
  | b => b.text

/-- The class of an object, the empty name for every other base. -/
def className : Base → String
  | .object name => name
  | _ => ""

end Base

namespace Ty

def scalar (base : Base) : Ty := ⟨base, []⟩

def void : Ty := scalar .void

def integer : Ty := scalar .integer

def float : Ty := scalar .float

def boolean : Ty := scalar .boolean

def object (className : String) : Ty := scalar (.object className)

def isArray (t : Ty) : Bool := !t.dims.isEmpty

/-- The type without its dimensions. -/
def elem (t : Ty) : Ty := scalar t.base

/-- The plain void type also marks an expression whose type is not known yet. -/
def isUnset (t : Ty) : Bool := t.base == .void && t.dims.isEmpty

def isInteger (t : Ty) : Bool := t.base == .integer && t.dims.isEmpty

def isFloat (t : Ty) : Bool := t.base == .float && t.dims.isEmpty

/-- Keeps a type that is set and takes the other one otherwise. -/
def orElse (t other : Ty) : Ty := if t.isUnset then other else t

def dimText (d : Int64) : String := "[" ++ decimal d.toInt ++ "]"

def text (t : Ty) : String := t.base.text ++ String.join (t.dims.map dimText)

/-- Reads the dimensions of `whole` from where the scan stands: `inside` holds the characters of an
open bracket in reverse, `done` the dimensions already read in reverse. -/
def parseDims (whole : String) (inside : Option (List Char)) (done : List Int64) :
    List Char → Except TypeError (List Int64)
  | [] =>
    match inside with
    | none => .ok done.reverse
    | some _ => .error (.unterminated whole)
  | c :: cs =>
    match inside with
    | none =>
      if c == '[' then parseDims whole (some []) done cs
      else .error (.expectedBracket whole)
    | some ds =>
      if c == ']' then
        match decimal64? (trimBlanks ds.reverse) with
        | some d => parseDims whole none (d :: done) cs
        | none => .error (.badDimension whole)
      else parseDims whole (some (c :: ds)) done cs

def parseBase (name : String) : Except TypeError Base :=
  if name == "" then .error .emptyName
  else if name == "void" then .ok .void
  else if name == "integer" || name == "int" then .ok .integer
  else if name == "float" then .ok .float
  else if name == "boolean" || name == "bool" then .ok .boolean
  else .ok (.object name)

/-- Reads a type from its text. Faulty dimensions are reported before an empty name. -/
def parse (s : String) : Except TypeError Ty := do
  let cs := trimBlanks s.toList
  let dims ← parseDims (String.ofList cs) none [] (cs.dropWhile (· != '['))
  let base ← parseBase (String.ofList (cs.takeWhile (· != '[')))
  return ⟨base, dims⟩

end Ty

end MoonBackend
