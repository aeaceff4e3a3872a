import MoonBackend.Text.Words

/-!
# File paths

Paths with `/` between their elements, as texts: the shortest equivalent path, the directory of a
file, and the replacement of an extension.
-/

namespace MoonBackend.FilePath

open Text

/-- The elements of a path that remain: `.` and empty elements go, and `..` takes the element before
it away. `rooted` paths have nothing above them. The elements kept so far are `done`, reversed. -/
def keep (rooted : Bool) (done : List (List Char)) : List (List Char) → List (List Char)
  | [] => done.reverse
  | e :: es =>
    if e == [] || e == ['.'] then keep rooted done es
    else if e == ['.', '.'] then
      match done with
      | [] => if rooted then keep rooted [] es else keep rooted [e] es
      | d :: ds => if d == ['.', '.'] then keep rooted (e :: d :: ds) es else keep rooted ds es
    else keep rooted (e :: done) es

def isAbsolute (path : String) : Bool := path.toList.head? == some '/'

def clean (path : String) : String :=
  let rooted := isAbsolute path
  let kept := keep rooted [] (splitWhen (· == '/') path.toList)
  let body := "/".intercalate (kept.map String.ofList)
  if rooted then "/" ++ body
  else if kept.isEmpty then "."
  else body

def absolute (directory path : String) : String :=
  if isAbsolute path then clean path
  else if path == "" then clean directory
  else clean (directory ++ "/" ++ path)

def directory (path : String) : String :=
  clean (String.ofList (path.toList.reverse.dropWhile (· != '/')).reverse)

/-- The extension of the last element of a path with its dot, empty if it has none. -/
def extension (path : String) : String :=
  let tail := path.toList.reverse.takeWhile fun c => c != '/'
  match tail.dropWhile (· != '.') with
  | [] => ""
  | _ => String.ofList ('.' :: (tail.takeWhile (· != '.')).reverse)

/-- The path with its extension replaced, or with the extension added if it has none. -/
def replaceExtension (path ext : String) : String :=
  String.ofList (path.toList.take (path.length - (extension path).length)) ++ ext

end MoonBackend.FilePath
