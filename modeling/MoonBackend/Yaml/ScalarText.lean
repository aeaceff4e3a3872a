import MoonBackend.Yaml.Cursor
import MoonBackend.Text.Numeral

/-!
# Scalars in a document

Reading a plain or a quoted scalar. A scalar may run over several lines: the blanks around a line
break fall away, a single break becomes a space, and of several breaks the first falls away.
-/

namespace MoonBackend.Yaml

/-- The text of a scalar under way. `text` is reversed, and so are the blanks and the breaks that
count only if more text follows. -/
structure Fold where
  text : List Char := []
  blanks : List Char := []
  /-- The first line break since the last character, if there was one. -/
  leading : Option Char := none
  /-- Whether a line break was passed since the last character. -/
  broken : Bool := false
  trailing : List Char := []

namespace Fold

def joined (f : Fold) : List Char :=
  if f.broken then
    match f.leading with
    | some b => if b == '\n' && f.trailing.isEmpty then ' ' :: f.text
                else if b == '\n' then f.trailing ++ f.text
                else f.trailing ++ b :: f.text
    | none => f.trailing ++ f.text
  else f.blanks ++ f.text

def char (f : Fold) (c : Char) : Fold := { text := c :: f.joined }

/-- Passes a space or a tab; blanks after a line break never count. -/
def blank (f : Fold) (c : Char) : Fold :=
  if f.broken then f else { f with blanks := c :: f.blanks }

def newline (f : Fold) (c : Char) : Fold :=
  if f.broken then { f with trailing := breakChar c :: f.trailing }
  else { f with blanks := [], broken := true, leading := some (breakChar c) }

def finish (f : Fold) : String := String.ofList f.text.reverse

end Fold

/-- What reading a scalar gives: its text, the rest of the document, where that stands, and whether
a line break was passed at the end. -/
structure ScalarRead where
  text : String
  rest : List Char
  pos : Pos
  broken : Bool

def isFlowIndicator (c : Char) : Bool :=
  c == ',' || c == '?' || c == '[' || c == ']' || c == '{' || c == '}'

/-- Reads a plain scalar. `afterBlank` says that the last character was a blank or a break. Fails
on a tab that stands where indentation is due. -/
def readPlain (inFlow : Bool) (indent : Int) (afterBlank : Bool) (f : Fold) (pos : Pos) :
    List Char → Option ScalarRead
  | [] => some ⟨f.finish, [], pos, f.broken⟩
  | '\r' :: '\n' :: cs => readPlain inFlow indent true (f.newline '\n') (pos.newline 2) cs
  | c :: cs =>
    let stop : Option ScalarRead := some ⟨f.finish, c :: cs, pos, f.broken⟩
    if isSpace c then
      if f.broken && c == '\t' && (pos.column : Int) < indent then none
      else readPlain inFlow indent true (f.blank c) (pos.next 1) cs
    else if isBreak c then readPlain inFlow indent true (f.newline c) (pos.newline 1) cs
    else if afterBlank && !inFlow && (pos.column : Int) < indent then stop
    else if afterBlank && (c == '#' || (pos.column == 0 && atDocumentMark (c :: cs))) then stop
    else if c == ':' && atBlank cs then stop
    else if inFlow && isFlowIndicator c then stop
    else readPlain inFlow indent false (f.char c) (pos.next 1) cs

/-- Reads a single-quoted scalar after its opening quote. Two quotes stand for one. -/
def readSingle (f : Fold) (pos : Pos) : List Char → Option ScalarRead
  | [] => none
  | '\'' :: '\'' :: cs => readSingle (f.char '\'') (pos.next 2) cs
  | '\r' :: '\n' :: cs => readSingle (f.newline '\n') (pos.newline 2) cs
  | c :: cs =>
    if pos.column == 0 && atDocumentMark (c :: cs) then none
    else if isSpace c then readSingle (f.blank c) (pos.next 1) cs
    else if isBreak c then readSingle (f.newline c) (pos.newline 1) cs
    else if c == '\'' then some ⟨String.ofList f.joined.reverse, cs, pos.next 1, false⟩
    else readSingle (f.char c) (pos.next 1) cs

def escaped? : Char → Option Char
  | '0' => some (Char.ofNat 0)
  | 'a' => some (Char.ofNat 7)
  | 'b' => some (Char.ofNat 8)
  | 't' | '\t' => some '\t'
  | 'n' => some '\n'
  | 'v' => some (Char.ofNat 11)
  | 'f' => some (Char.ofNat 12)
  | 'r' => some '\r'
  | 'e' => some (Char.ofNat 27)
  | ' ' => some ' '
  | '"' => some '"'
  | '\'' => some '\''
  | '\\' => some '\\'
  | 'N' => some '\u0085'
  | '_' => some '\u00A0'
  | 'L' => some '\u2028'
  | 'P' => some '\u2029'
  | _ => none

def codePoint? (ds : List Char) : Option Char :=
  (MoonBackend.Text.digits? 16 ds).bind fun n =>
    if n < 0xD800 || (0xE000 ≤ n && n < 0x110000) then some (Char.ofNat n) else none

/-- Reads a double-quoted scalar after its opening quote. A backslash before a line break joins the
two lines. -/
def readDouble (f : Fold) (pos : Pos) : List Char → Option ScalarRead
  | [] => none
  | '\\' :: cs =>
    match cs with
    | [] => none
    | 'x' :: a :: b :: rest =>
      match codePoint? [a, b] with
      | some c => readDouble (f.char c) (pos.next 4) rest
      | none => none
    | 'u' :: a :: b :: c :: d :: rest =>
      match codePoint? [a, b, c, d] with
      | some ch => readDouble (f.char ch) (pos.next 6) rest
      | none => none
    | 'U' :: a :: b :: c :: d :: e :: g :: h :: i :: rest =>
      match codePoint? [a, b, c, d, e, g, h, i] with
      | some ch => readDouble (f.char ch) (pos.next 10) rest
      | none => none
    | '\r' :: '\n' :: rest =>
      readDouble { text := f.joined, broken := true } ((pos.next 1).newline 2) rest
    | e :: rest =>
      if isBreak e then
        readDouble { text := f.joined, broken := true } ((pos.next 1).newline 1) rest
      else
        match escaped? e with
        | some c => readDouble (f.char c) (pos.next 2) rest
        | none => none
  | '\r' :: '\n' :: cs => readDouble (f.newline '\n') (pos.newline 2) cs
  | c :: cs =>
    if pos.column == 0 && atDocumentMark (c :: cs) then none
    else if isSpace c then readDouble (f.blank c) (pos.next 1) cs
    else if isBreak c then readDouble (f.newline c) (pos.newline 1) cs
    else if c == '"' then some ⟨String.ofList f.joined.reverse, cs, pos.next 1, false⟩
    else readDouble (f.char c) (pos.next 1) cs

end MoonBackend.Yaml
