import MoonBackend.Yaml.Token

/-!
# Documents as trees

The tree of the first document of a text, built from its tokens. A value that is left out is a
plain scalar with no text.
-/

namespace MoonBackend.Yaml

/-- A document tree. A mapping remembers the line on which it starts. -/
inductive Node where
  | scalar (isQuoted : Bool) (text : String)
  | sequence (items : List Node)
  | mapping (line : Nat) (entries : List (Node × Node))
  deriving Inhabited

namespace Node

/-- The scalar that stands for a value left out. -/
def absent : Node := .scalar false ""

abbrev Parsed := Option (Node × List Lexeme)

def startsWith (ts : List Lexeme) (options : List Token) : Bool :=
  match ts with
  | [] => false
  | t :: _ => options.contains t.token

/-- What stands after the comma between two items of a flow collection; the first item has none in
front. -/
def afterComma (first : Bool) : List Lexeme → Option (List Lexeme)
  | [] => none
  | t :: rest => if first then some (t :: rest) else if t.token = .flowEntry then some rest else none

mutual

/-- Reads one tree. Block collections may stand only where `block` allows them, and a sequence at
the indentation of its key only where `unindented` does. -/
def parse (fuel : Nat) (block unindented : Bool) (ts : List Lexeme) : Parsed :=
  match fuel, ts with
  | 0, _ => none
  | _, [] => none
  | fuel + 1, ⟨t, line⟩ :: rest =>
    match t with
    | .scalar isQuoted text => some (.scalar isQuoted text, rest)
    | .flowSequence => parseFlowSequence fuel true [] rest
    | .flowMapping => parseFlowMapping fuel true line [] rest
    | .blockSequence => if block then parseBlockSequence fuel [] rest else none
    | .blockMapping => if block then parseBlockMapping fuel line [] rest else none
    | .blockEntry => if unindented then parseUnindented fuel [] ts else none
    | _ => none

def parseBlockSequence (fuel : Nat) (items : List Node) (ts : List Lexeme) : Parsed :=
  match fuel, ts with
  | 0, _ => none
  | fuel + 1, ⟨.blockEntry, _⟩ :: rest =>
    if startsWith rest [.blockEntry, .blockEnd] then
      parseBlockSequence fuel (absent :: items) rest
    else
      match parse fuel true false rest with
      | some (item, rest') => parseBlockSequence fuel (item :: items) rest'
      | none => none
  | _, ⟨.blockEnd, _⟩ :: rest => some (.sequence items.reverse, rest)
  | _, _ => none

/-- Reads the items of a sequence that is not indented below its key; it ends where no dash
follows. -/
def parseUnindented (fuel : Nat) (items : List Node) (ts : List Lexeme) : Parsed :=
  match fuel, ts with
  | 0, _ => none
  | fuel + 1, ⟨.blockEntry, _⟩ :: rest =>
    if startsWith rest [.blockEntry, .key, .value, .blockEnd] then
      parseUnindented fuel (absent :: items) rest
    else
      match parse fuel true false rest with
      | some (item, rest') => parseUnindented fuel (item :: items) rest'
      | none => none
  | _, [] => none
  | _, ts => some (.sequence items.reverse, ts)

def parseBlockMapping (fuel : Nat) (line : Nat) (entries : List (Node × Node))
    (ts : List Lexeme) : Parsed :=
  match fuel, ts with
  | 0, _ => none
  | fuel + 1, ⟨.key, _⟩ :: rest =>
    let key :=
      if startsWith rest [.key, .value, .blockEnd] then some (absent, rest)
      else parse fuel true true rest
    match key with
    | none => none
    | some (k, rest) =>
      match parseBlockValue fuel rest with
      | some (v, rest) => parseBlockMapping fuel line ((k, v) :: entries) rest
      | none => none
  | _, ⟨.blockEnd, _⟩ :: rest => some (.mapping line entries.reverse, rest)
  | _, _ => none

def parseBlockValue (fuel : Nat) (ts : List Lexeme) : Parsed :=
  match fuel, ts with
  | 0, _ => none
  | _, [] => none
  | fuel + 1, ⟨.value, _⟩ :: rest =>
    if startsWith rest [.key, .value, .blockEnd] then some (absent, rest)
    else parse fuel true true rest
  | _, ts => some (absent, ts)

/-- Reads the items of a bracketed sequence. An item may be a single entry of a mapping. -/
def parseFlowSequence (fuel : Nat) (first : Bool) (items : List Node) (ts : List Lexeme) :
    Parsed :=
  match fuel, ts with
  | 0, _ => none
  | _, [] => none
  | fuel + 1, t :: rest =>
    if t.token = .flowSequenceEnd then some (.sequence items.reverse, rest)
    else
      match afterComma first (t :: rest) with
      | none => none
      | some [] => none
      | some (t :: rest) =>
        if t.token = .flowSequenceEnd then some (.sequence items.reverse, rest)
        else if t.token = .key then
          match parsePair fuel t.line rest with
          | some (pair, rest') => parseFlowSequence fuel false (pair :: items) rest'
          | none => none
        else
          match parse fuel false false (t :: rest) with
          | some (item, rest') => parseFlowSequence fuel false (item :: items) rest'
          | none => none

def parsePair (fuel : Nat) (line : Nat) (ts : List Lexeme) : Parsed :=
  match fuel with
  | 0 => none
  | fuel + 1 =>
    let key :=
      if startsWith ts [.value, .flowEntry, .flowSequenceEnd] then some (absent, ts)
      else parse fuel false false ts
    match key with
    | none => none
    | some (k, rest) =>
      match parseFlowValue fuel .flowSequenceEnd rest with
      | some (v, rest') => some (.mapping line [(k, v)], rest')
      | none => none

def parseFlowValue (fuel : Nat) (close : Token) (ts : List Lexeme) : Parsed :=
  match fuel, ts with
  | 0, _ => none
  | _, [] => none
  | fuel + 1, ⟨.value, _⟩ :: rest =>
    if startsWith rest [.flowEntry, close] then some (absent, rest)
    else parse fuel false false rest
  | _, ts => some (absent, ts)

/-- Reads the entries of a braced mapping. An entry without a key token is a key without value. -/
def parseFlowMapping (fuel : Nat) (first : Bool) (line : Nat) (entries : List (Node × Node))
    (ts : List Lexeme) : Parsed :=
  match fuel, ts with
  | 0, _ => none
  | _, [] => none
  | fuel + 1, t :: rest =>
    if t.token = .flowMappingEnd then some (.mapping line entries.reverse, rest)
    else
      match afterComma first (t :: rest) with
      | none => none
      | some [] => none
      | some (t :: rest) =>
        if t.token = .flowMappingEnd then some (.mapping line entries.reverse, rest)
        else if t.token = .key then
          let key :=
            if startsWith rest [.value, .flowEntry, .flowMappingEnd] then some (absent, rest)
            else parse fuel false false rest
          match key with
          | none => none
          | some (k, rest) =>
            match parseFlowValue fuel .flowMappingEnd rest with
            | some (v, rest') => parseFlowMapping fuel false line ((k, v) :: entries) rest'
            | none => none
        else
          match parse fuel false false (t :: rest) with
          | some (k, rest') => parseFlowMapping fuel false line ((k, absent) :: entries) rest'
          | none => none

end

/-- The tree of the first document, or nothing when there is none. Fails on a text that is no
document. Every call below takes a token or hands on to a call that does, and no chain of calls
that takes none is longer than three. -/
def ofTokens (ts : List Lexeme) : Option (Option Node) :=
  let tree (ts : List Lexeme) : Option (Option Node) :=
    match parse (4 * ts.length + 8) true false ts with
    | some (n, _ :: _) => some (some n)
    | _ => none
  match ts with
  | [] => none
  | ⟨.streamEnd, _⟩ :: _ => some none
  | ⟨.documentStart, _⟩ :: rest =>
    if startsWith rest [.documentStart, .documentEnd, .streamEnd] then some (some absent)
    else tree rest
  | ts => tree ts

def ofSource (source : String) : Option (Option Node) := ofTokens (tokens source)

end Node

end MoonBackend.Yaml
