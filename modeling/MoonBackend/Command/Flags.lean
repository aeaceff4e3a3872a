import MoonBackend.Text.Numeral

/-!
# Flags of a command line

A flag starts with one or two dashes and may carry its value after `=`. A switch is on when it has
no value; every other flag takes the next argument then. Flags end at `--`, which is dropped, and
at the first argument that is no flag.
-/

namespace MoonBackend.Command

open Text

inductive FlagKind where
  | text
  | switch
  | number
  deriving DecidableEq

inductive FlagValue where
  | text (s : String)
  | switch (on : Bool)
  | number (n : Int64)
  deriving DecidableEq

inductive FlagError where
  | badSyntax (arg : String)
  | unknown (name : String)
  | noArgument (name : String)
  | badValue (name value : String)
  | help
  deriving DecidableEq

def FlagError.message : FlagError → String
  | .badSyntax arg => "bad flag syntax: " ++ arg
  | .unknown name => "flag provided but not defined: -" ++ name
  | .noArgument name => "flag needs an argument: -" ++ name
  | .badValue name value => "invalid value " ++ value ++ " for flag -" ++ name
  | .help => "help requested"

/-- The flags that were given, the last one first, and the arguments after them. -/
structure Parsed where
  values : List (String × FlagValue)
  arguments : List String
  deriving DecidableEq

def boolOf? (s : String) : Option Bool :=
  if ["1", "t", "T", "TRUE", "true", "True"].contains s then some true
  else if ["0", "f", "F", "FALSE", "false", "False"].contains s then some false
  else none

def FlagKind.read? (kind : FlagKind) (value : String) : Option FlagValue :=
  match kind with
  | .text => some (.text value)
  | .switch => (boolOf? value).map .switch
  | .number => (literal64? value.toList).map .number

inductive Argument where
  | stop
  | plain
  | bad
  | flag (name : String) (value : Option String)
  deriving DecidableEq

def flagOf (name : List Char) : Argument :=
  match name with
  | [] => .bad
  | c :: cs =>
    if c == '-' || c == '=' then .bad
    else
      let stem := String.ofList (c :: cs.takeWhile (· != '='))
      match cs.dropWhile (· != '=') with
      | [] => .flag stem none
      | _ :: value => .flag stem (some (String.ofList value))

def classify (arg : String) : Argument :=
  match arg.toList with
  | ['-', '-'] => .stop
  | '-' :: '-' :: name => flagOf name
  | '-' :: c :: name => flagOf (c :: name)
  | _ => .plain

/-- Reads flags of the given kinds; `seen` are those read before, the last one first. -/
def parseFlags (kinds : List (String × FlagKind)) (seen : List (String × FlagValue)) :
    List String → Except FlagError Parsed
  | [] => .ok ⟨seen, []⟩
  | arg :: rest =>
    match classify arg with
    | .stop => .ok ⟨seen, rest⟩
    | .plain => .ok ⟨seen, arg :: rest⟩
    | .bad => .error (.badSyntax arg)
    | .flag name value =>
      match kinds.lookup name with
      | none => .error (if name == "help" || name == "h" then .help else .unknown name)
      | some kind =>
        match value, kind, rest with
        | none, .switch, rest => parseFlags kinds ((name, .switch true) :: seen) rest
        | none, _, [] => .error (.noArgument name)
        | none, kind, next :: rest =>
          match kind.read? next with
          | some v => parseFlags kinds ((name, v) :: seen) rest
          | none => .error (.badValue name next)
        | some value, kind, rest =>
          match kind.read? value with
          | some v => parseFlags kinds ((name, v) :: seen) rest
          | none => .error (.badValue name value)

namespace Parsed

/-- The text of a flag, empty if it was not given. -/
def text (p : Parsed) (name : String) : String :=
  match p.values.lookup name with
  | some (.text s) => s
  | _ => ""

def isOn (p : Parsed) (name : String) : Bool := p.values.lookup name == some (.switch true)

def number (p : Parsed) (name : String) : Int64 :=
  match p.values.lookup name with
  | some (.number n) => n
  | _ => 0

end Parsed

end MoonBackend.Command
