import MoonBackend.Yaml.ScalarText

/-!
# Tokens of a document

The scan turns a document into tokens. Brackets and commas are tokens of their own; in block style
the indentation is made explicit by start and end tokens. Whether a scalar or a bracket begins a
mapping key is known only when the colon after it is met, so each level of nesting remembers the
last place where a key may have begun, and the key token is put in there afterwards.
-/

namespace MoonBackend.Yaml

inductive Token where
  | documentStart
  | documentEnd
  | blockSequence
  | blockMapping
  | blockEnd
  | flowSequence
  | flowSequenceEnd
  | flowMapping
  | flowMappingEnd
  | blockEntry
  | flowEntry
  | key
  | value
  | scalar (isQuoted : Bool) (text : String)
  | streamEnd
  deriving DecidableEq

/-- A token with the line on which it starts, counted from one. -/
structure Lexeme where
  token : Token
  line : Nat
  deriving DecidableEq

/-- A place where a mapping key may have begun. A key is required where a line of a block mapping
starts. -/
structure KeyMark where
  isRequired : Bool
  tokenNumber : Nat
  pos : Pos

/-- The state of a scan. `tokens` is reversed; `keys` holds the possible key of each level of
brackets, the innermost first; `indents` the enclosing indentations. -/
structure Scan where
  rest : List Char
  pos : Pos := .start
  tokens : List Lexeme := []
  count : Nat := 0
  indent : Int := -1
  indents : List Int := []
  flow : Nat := 0
  keyAllowed : Bool := true
  keys : List (Option KeyMark) := [none]
  isDone : Bool := false

namespace Scan

def push (s : Scan) (t : Token) (line : Nat) : Scan :=
  { s with tokens := ⟨t, line + 1⟩ :: s.tokens, count := s.count + 1 }

def insert (s : Scan) (number : Nat) (t : Token) (line : Nat) : Scan :=
  { s with tokens := s.tokens.insertIdx (s.count - number) ⟨t, line + 1⟩, count := s.count + 1 }

def advance (s : Scan) (n : Nat) (rest : List Char) : Scan :=
  { s with rest := rest, pos := s.pos.next n }

def currentKey (s : Scan) : Option KeyMark := s.keys.head?.join

def setKey (s : Scan) (k : Option KeyMark) : Scan := { s with keys := k :: s.keys.tail }

/-- Gives up the possible key of the innermost level; fails if a key was required there. -/
def dropKey (s : Scan) : Option Scan :=
  match s.currentKey with
  | some k => if k.isRequired then none else some (s.setKey none)
  | none => some s

def saveKey (s : Scan) : Option Scan :=
  if s.keyAllowed then
    s.dropKey.map fun s =>
      s.setKey (some ⟨s.flow == 0 && s.indent == (s.pos.column : Int), s.count, s.pos⟩)
  else some s

/-- A key and its colon stand on one line, at most 1024 characters apart. -/
def inReach (s : Scan) (k : KeyMark) : Bool :=
  k.pos.line == s.pos.line && s.pos.index ≤ k.pos.index + 1024

def unrollTo (column : Int) (indent : Int) : List Int → Scan → Scan
  | [], s => { s with indent := indent, indents := [] }
  | outer :: indents, s =>
    if column < indent then unrollTo column outer indents (s.push .blockEnd s.pos.line)
    else { s with indent := indent, indents := outer :: indents }

/-- Ends the blocks that the current column has left. Inside brackets indentation means nothing. -/
def unroll (s : Scan) (column : Int) : Scan :=
  if s.flow == 0 then unrollTo column s.indent s.indents s else s

/-- Starts a block at the column if it is deeper than the current one; the start token goes in front
of the token with the given number, or to the end. -/
def roll (s : Scan) (column : Nat) (number : Option Nat) (t : Token) (line : Nat) : Scan :=
  if s.flow == 0 && s.indent < (column : Int) then
    let s := { s with indents := s.indent :: s.indents, indent := column }
    match number with
    | some n => s.insert n t line
    | none => s.push t line
  else s

/-- Skips blanks, comments and line breaks. A tab may stand only where no key can begin, or in
lines between two comments. -/
def skipBlanks (inFlow : Bool) (inComment afterComment keyAllowed : Bool) (pos : Pos) :
    List Char → List Char × Pos × Bool
  | [] => ([], pos, keyAllowed)
  | '\r' :: '\n' :: cs =>
    skipBlanks inFlow false (inComment || afterComment) (keyAllowed || !inFlow) (pos.newline 2) cs
  | c :: cs =>
    if isBreak c then
      skipBlanks inFlow false (inComment || afterComment) (keyAllowed || !inFlow) (pos.newline 1) cs
    else if inComment || c == ' ' || (c == '\uFEFF' && pos.column == 0) then
      skipBlanks inFlow inComment afterComment keyAllowed (pos.next 1) cs
    else if c == '#' then
      skipBlanks inFlow true afterComment keyAllowed (pos.next 1) cs
    else if c == '\t' && (inFlow || !keyAllowed
        || (afterComment && (cs.dropWhile fun d => isSpace d || isBreak d).head? == some '#')) then
      skipBlanks inFlow inComment afterComment keyAllowed (pos.next 1) cs
    else (c :: cs, pos, keyAllowed)

def fetchEnd (s : Scan) : Option Scan :=
  let s := if s.pos.column == 0 then s else { s with pos := s.pos.newline 0 }
  (s.unroll (-1)).dropKey.map fun s =>
    { s.push .streamEnd s.pos.line with keyAllowed := false, isDone := true }

def fetchDocumentMark (s : Scan) (t : Token) : Option Scan :=
  (s.unroll (-1)).dropKey.map fun s =>
    { (s.push t s.pos.line).advance 3 (s.rest.drop 3) with keyAllowed := false }

/-- An opening bracket may itself begin a key, and a key may follow it. -/
def fetchOpen (s : Scan) (t : Token) (rest : List Char) : Option Scan :=
  s.saveKey.map fun s =>
    { (s.push t s.pos.line).advance 1 rest with
      keys := none :: s.keys, flow := s.flow + 1, keyAllowed := true }

/-- A closing bracket. Without an open one the level stays as it is. -/
def fetchClose (s : Scan) (t : Token) (rest : List Char) : Option Scan :=
  s.dropKey.map fun s =>
    let s := if s.flow == 0 then s else { s with keys := s.keys.tail, flow := s.flow - 1 }
    { (s.push t s.pos.line).advance 1 rest with keyAllowed := false }

def fetchComma (s : Scan) (rest : List Char) : Option Scan :=
  s.dropKey.map fun s => { (s.push .flowEntry s.pos.line).advance 1 rest with keyAllowed := true }

def fetchDash (s : Scan) (rest : List Char) : Option Scan :=
  if s.flow == 0 && !s.keyAllowed then none
  else
    (s.roll s.pos.column none .blockSequence s.pos.line).dropKey.map fun s =>
      { (s.push .blockEntry s.pos.line).advance 1 rest with keyAllowed := true }

def fetchQuestion (s : Scan) (rest : List Char) : Option Scan :=
  if s.flow == 0 && !s.keyAllowed then none
  else
    (s.roll s.pos.column none .blockMapping s.pos.line).dropKey.map fun s =>
      { (s.push .key s.pos.line).advance 1 rest with keyAllowed := s.flow == 0 }

/-- A colon: either the key before it is now known to be one, or it follows a key that was marked
as such, or, inside brackets, no key at all. -/
def fetchColon (s : Scan) (rest : List Char) : Option Scan :=
  let colon (s : Scan) (allowed : Bool) : Scan :=
    { (s.push .value s.pos.line).advance 1 rest with keyAllowed := allowed }
  let unkeyed (s : Scan) : Option Scan :=
    if s.flow == 0 && !s.keyAllowed then none
    else some (colon (s.roll s.pos.column none .blockMapping s.pos.line) (s.flow == 0))
  match s.currentKey with
  | none => unkeyed s
  | some k =>
    if s.inReach k then
      let s := s.insert k.tokenNumber .key k.pos.line
      let s := s.roll k.pos.column (some k.tokenNumber) .blockMapping k.pos.line
      some (colon (s.setKey none) false)
    else if k.isRequired then none
    else unkeyed (s.setKey none)

def fetchScalar (s : Scan) (isQuoted : Bool) (read : Scan → Option ScalarRead) : Option Scan := do
  let s ← s.saveKey
  let r ← read s
  return { s.push (.scalar isQuoted r.text) s.pos.line with
    rest := r.rest, pos := r.pos, keyAllowed := r.broken }

def isIndicator (c : Char) : Bool :=
  ['-', '?', ':', ',', '[', ']', '\x7b', '\x7d', '#', '&', '*', '!', '|', '>', '\x27', '\x22',
    '%', '@', '\x60'].contains c

/-- Scans the next token; fails where no token can begin. Anchors, aliases, tags, directives and
block scalars are not part of the accepted documents. -/
def next (s : Scan) : Option Scan :=
  let (rest, pos, keyAllowed) := skipBlanks (0 < s.flow) false false s.keyAllowed s.pos s.rest
  let s := { s with rest := rest, pos := pos, keyAllowed := keyAllowed }
  let s := s.unroll s.pos.column
  let inFlow := 0 < s.flow
  let plain (s : Scan) := s.fetchScalar false fun s =>
    readPlain (0 < s.flow) (s.indent + 1) false {} s.pos s.rest
  match rest with
  | [] => s.fetchEnd
  | c :: cs =>
    if pos.column == 0 && atDocumentMark rest then
      s.fetchDocumentMark (if c == '-' then .documentStart else .documentEnd)
    else if c == '[' then s.fetchOpen .flowSequence cs
    else if c == '{' then s.fetchOpen .flowMapping cs
    else if c == ']' then s.fetchClose .flowSequenceEnd cs
    else if c == '}' then s.fetchClose .flowMappingEnd cs
    else if c == ',' then s.fetchComma cs
    else if c == '-' && atBlank cs then s.fetchDash cs
    else if c == '?' && (inFlow || atBlank cs) then s.fetchQuestion cs
    else if c == ':' && (inFlow || atBlank cs) then s.fetchColon cs
    else if c == '\'' then
      s.fetchScalar true fun s => readSingle {} (s.pos.next 1) cs
    else if c == '"' then
      s.fetchScalar true fun s => readDouble {} (s.pos.next 1) cs
    else if !isIndicator c && !isSpace c then plain s
    else if c == '-' then plain s
    else if c == '?' || c == ':' then plain s
    else none

/-- The tokens that can be used when the scan fails: a reader looks two tokens ahead, and it cannot
pass a possible key before it is decided. -/
def usable (s : Scan) : List Lexeme :=
  let pending := s.keys.foldl (fun n k =>
    match k with
    | some k => if s.inReach k then min n k.tokenNumber else n
    | none => n) (s.count - 2)
  s.tokens.reverse.take pending

/-- Scans until the document ends or no token can begin. A token takes at least one character, so
one round for each character and one for the end are enough. -/
def all : Nat → Scan → List Lexeme
  | 0, s => s.usable
  | rounds + 1, s =>
    if s.isDone then s.tokens.reverse
    else
      match s.next with
      | some s' => all rounds s'
      | none => s.usable

end Scan

/-- The tokens of a document as far as they can be had. They end with `streamEnd` if the whole
document was scanned. A byte order mark at the start is passed over. -/
def tokens (source : String) : List Lexeme :=
  let cs := source.toList
  let cs := if cs.head? == some '\uFEFF' then cs.tail else cs
  if cs.all isAllowed then Scan.all (cs.length + 2) { rest := cs } else []

end MoonBackend.Yaml
