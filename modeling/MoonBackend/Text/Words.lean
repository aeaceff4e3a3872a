import MoonBackend.Text.Character

/-!
# Cutting text

Trimming, splitting into words at blanks, splitting at a character, and padding to a column.
-/

namespace MoonBackend.Text

def trimBlanks (cs : List Char) : List Char :=
  ((cs.dropWhile isBlank).reverse.dropWhile isBlank).reverse

def trim (s : String) : String := String.ofList (trimBlanks s.toList)

/-- Splits the rest of a text: `piece` is the piece under way and `done` the finished ones, both
reversed. -/
def splitFrom (p : Char → Bool) (piece : List Char) (done : List (List Char)) :
    List Char → List (List Char)
  | [] => (piece.reverse :: done).reverse
  | c :: cs =>
    if p c then splitFrom p [] (piece.reverse :: done) cs else splitFrom p (c :: piece) done cs

/-- Pieces between the characters that satisfy `p`. There is always one piece more than there are
such characters. -/
def splitWhen (p : Char → Bool) (cs : List Char) : List (List Char) := splitFrom p [] [] cs

/-- The maximal runs of characters that are not blank. -/
def words (cs : List Char) : List (List Char) :=
  (splitWhen isBlank cs).filter fun piece => !piece.isEmpty

/-- The lines of a text; the piece after the last line feed counts even when it is empty. -/
def lines (cs : List Char) : List (List Char) := splitWhen (· == '\n') cs

def spaces (n : Nat) : String := String.ofList (List.replicate n ' ')

@[simp]
theorem length_spaces (n : Nat) : (spaces n).length = n := by simp [spaces]

def padRight (width : Nat) (s : String) : String := s ++ spaces (width - s.length)

def padLeft (width : Nat) (s : String) : String := spaces (width - s.length) ++ s

/-- A list of words between brackets, a space between two of them. -/
def bracketed (items : List String) : String := "[" ++ " ".intercalate items ++ "]"

end MoonBackend.Text
