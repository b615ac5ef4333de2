import RubyLint.Files.Path

/-!
# File trees

A tree of folders and files, and the working folder from which paths are taken.  A path is followed
name by name: every name but the last must be a folder, and `..` leads back to the folder above.
-/

namespace RubyLint

/-- A file with its bytes, or a folder with its entries. -/
inductive FileTree where
  | file (data : List UInt8)
  | folder (entries : List (String × FileTree))
deriving Inhabited

namespace FileTree

def isFolder : FileTree → Bool
  | .file _ => false
  | .folder _ => true

def entries : FileTree → List (String × FileTree)
  | .file _ => []
  | .folder entries => entries

/-- Follows names from a place whose folders above it are given, the nearest first. -/
def follow (above : List FileTree) (here : FileTree) : List String → Option FileTree
  | [] => some here
  | name :: rest =>
    match here with
    | .file _ => none
    | .folder entries =>
      if name == "" || name == "." then follow above here rest
      else if name == ".." then
        match above with
        | [] => follow [] here rest
        | up :: above => follow above up rest
      else
        match entries.lookup name with
        | none => none
        | some there => follow (here :: above) there rest

/-- Puts a tree at a place, making the folders on the way. -/
def put (tree : FileTree) : List String → FileTree → FileTree
  | [], _ => tree
  | name :: rest, here =>
    let below := (here.entries.lookup name).getD (.folder [])
    .folder ((here.entries.filter fun entry => entry.1 != name) ++ [(name, put tree rest below)])

end FileTree

/-- A file tree and the working folder in it. -/
structure Files where
  tree : FileTree
  folder : String

namespace Files

/-- What a path leads to; the empty path leads nowhere. -/
def find? (files : Files) (path : String) : Option FileTree :=
  if path == "" then none
  else FileTree.follow [] files.tree (Path.names (Path.join files.folder path))

def hasAny (files : Files) (path : String) : Bool :=
  (files.find? path).isSome

def hasFile (files : Files) (path : String) : Bool :=
  match files.find? path with
  | some (.file _) => true
  | _ => false

def put (files : Files) (path : String) (tree : FileTree) : Files :=
  { files with tree := tree.put (Path.normalNames (Path.join files.folder path)) files.tree }

/-- A tree that holds nothing but the working folder. -/
def ofFolder (folder : String) : Files :=
  (⟨.folder [], folder⟩ : Files).put "." (.folder [])

def absolute (files : Files) (path : String) : String :=
  Path.absolute files.folder path

end Files

end RubyLint
