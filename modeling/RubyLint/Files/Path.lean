import RubyLint.Text.Utf8

/-!
# Paths

Paths as text, with `/` between names.  A path is normal when it holds no empty name, no `.`, and no
`..` that could be resolved against a name before it; these operations never look at the files
themselves.  Exactly two slashes at the front of a path are kept apart from one.
-/

namespace RubyLint.Path

/-- The names of a path; an empty one stands on each side of a slash at an end and between two
slashes. -/
def names (path : String) : List String :=
  (path.toList.splitOn '/').map String.ofList

def ofNames (parts : List String) : String :=
  "/".intercalate parts

def isAbsolute (path : String) : Bool :=
  path.toList.head? == some '/'

/-- The slashes at the front of a path that a normal path keeps: two if there are exactly two,
otherwise at most one. -/
def root (path : String) : String :=
  match path.toList with
  | '/' :: '/' :: '/' :: _ => "/"
  | '/' :: '/' :: _ => "//"
  | '/' :: _ => "/"
  | _ => ""

/-- Adds one name to normal ones, the latest of which comes first. -/
def push (absolute : Bool) (kept : List String) (name : String) : List String :=
  if name == "" || name == "." then kept
  else if name != ".." then name :: kept
  else
    match kept with
    | [] => if absolute then [] else [".."]
    | last :: rest => if last == ".." then ".." :: kept else rest

def normalNames (path : String) : List String :=
  ((names path).foldl (push (isAbsolute path)) []).reverse

/-- The normal form of a path; `.` if nothing is left. -/
def normal (path : String) : String :=
  let text := root path ++ ofNames (normalNames path)
  if text == "" then "." else text

def join (folder path : String) : String :=
  if isAbsolute path then path
  else if folder == "" || folder.toList.getLast? == some '/' then folder ++ path
  else folder ++ "/" ++ path

def absolute (folder path : String) : String :=
  normal (join folder path)

/-- The absolute form of a path with one slash in front. -/
def resolved (folder path : String) : String :=
  "/" ++ ofNames (normalNames (join folder path))

def dropCommon : List String → List String → List String × List String
  | a :: as, b :: bs => if a == b then dropCommon as bs else (a :: as, b :: bs)
  | as, bs => (as, bs)

/-- The way to a path from a start, both of them taken from a folder. -/
def relative (folder path start : String) : String :=
  let (above, below) :=
    dropCommon (normalNames (join folder start)) (normalNames (join folder path))
  let parts := above.map (fun _ => "..") ++ below
  if parts.isEmpty then "." else ofNames parts

/-- The part of a path after its last slash. -/
def lastName (path : String) : String :=
  (names path).getLast?.getD ""

/-- The part of a path before its last slash; slashes at its end go too, unless there is nothing
else. -/
def parent (path : String) : String :=
  let front := (path.toList.reverse.dropWhile (· != '/')).reverse
  if front.all (· == '/') then String.ofList front
  else String.ofList (front.reverse.dropWhile (· == '/')).reverse

/-- Whether a byte of a URI path stands for itself. -/
def isUriByte (b : UInt8) : Bool :=
  let c := Char.ofNat b.toNat
  b < 0x80 && (c.isAlphanum || ['_', '.', '-', '~', '/'].contains c)

def uriByte (b : UInt8) : List Char :=
  if isUriByte b then [Char.ofNat b.toNat]
  else '%' :: (Utf8.hexByte b).toList.map Char.toUpper

def uri (path : String) : String :=
  "file://" ++ String.ofList ((Utf8.encode path).flatMap uriByte)

end RubyLint.Path
