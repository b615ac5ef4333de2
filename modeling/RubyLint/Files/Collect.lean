import RubyLint.Config
import RubyLint.Files.Tree

/-!
# Collecting files

The files that a run looks at: those named directly and those below the folders named, without
hidden folders and the folders of dependencies and build products.  Within a folder files come
before subfolders, both by name.  A file that is reached twice counts once, and a file whose path
from the root of the analysis matches an exclude pattern does not count.
-/

namespace RubyLint

namespace FileTree

def rubyEndings : List String :=
  [".rb", ".rake", ".gemspec", ".ru"]

/-- The names of Ruby files without such an end. -/
def rubyNames : List String :=
  ["Gemfile", "Rakefile"]

/-- The folders that are passed over besides the hidden ones. -/
def skippedFolders : List String :=
  [".git", ".bundle", "node_modules", "vendor", "tmp", "coverage"]

def isRubyName (name : String) : Bool :=
  rubyEndings.any (fun ending => ending.toList.isSuffixOf name.toList) || rubyNames.contains name

def isSkipped (name : String) : Bool :=
  skippedFolders.contains name || name.toList.head? == some '.'

def rubyFiles (entries : List (String × FileTree)) : List String :=
  let files := entries.filter fun entry => !entry.2.isFolder && isRubyName entry.1
  (files.map (·.1)).mergeSort (· ≤ ·)

mutual

def rubyPaths (path : String) : FileTree → List String
  | .file _ => []
  | .folder entries =>
    (rubyFiles entries).map (Path.join path) ++
      ((subfolderPaths path entries).mergeSort fun a b => a.1 ≤ b.1).flatMap (·.2)

/-- The names of the subfolders that are not passed over, with the paths of the Ruby files below
them. -/
def subfolderPaths (path : String) : List (String × FileTree) → List (String × List String)
  | [] => []
  | (name, tree) :: rest =>
    if tree.isFolder && !isSkipped name then
      (name, rubyPaths (Path.join path name) tree) :: subfolderPaths path rest
    else subfolderPaths path rest

end

end FileTree

namespace Files

/-- The Ruby files that a path names, or a warning if it names nothing. -/
def listPath (files : Files) (path : String) : List String × List Log :=
  match files.find? path with
  | none => ([], [.warn "ruby_adapter" s!"Path '{path}' does not exist"])
  | some (.file _) => (if FileTree.isRubyName (Path.lastName path) then [path] else [], [])
  | some tree => (tree.rubyPaths path, [])

def list (files : Files) (paths : List String) : List String × List Log :=
  let found := paths.map files.listPath
  (found.flatMap (·.1), found.flatMap (·.2))

/-- Whether the path from the root of the analysis matches one of the patterns.  The root is the
working folder unless another one is given; folders above it never take part. -/
def isExcluded (files : Files) (patterns : Value) (root path : String) :
    Except ValueFault Bool :=
  if !patterns.truthy then .ok false
  else
    let start := if root == "" then files.folder else root
    Config.selects patterns (Path.relative files.folder path start)

/-- Drops files that are excluded or whose absolute path was seen before. -/
def dedupe (files : Files) (patterns : Value) (root : String) (seen : List String) :
    List String → Except ValueFault (List String)
  | [] => .ok []
  | path :: rest => do
    let key := files.absolute path
    if seen.contains key then dedupe files patterns root seen rest
    else if ← files.isExcluded patterns root path then dedupe files patterns root seen rest
    else return path :: (← dedupe files patterns root (key :: seen) rest)

def collect (files : Files) (paths : List String) (patterns : Value) (root : String) :
    Except ValueFault (List String) :=
  files.dedupe patterns root [] (files.list paths).1

/-- The names under which a configuration file is looked for, in order. -/
def configNames : List String :=
  [".treecop.yml", ".treecop.yaml", "treecop.yml", "treecop.yaml"]

/-- Looks for a configuration file in a folder, then in the folders above it.  The first argument
bounds the number of folders. -/
def configAbove (files : Files) : Nat → String → Option String
  | 0, _ => none
  | depth + 1, folder =>
    match (configNames.map (Path.join folder)).find? files.hasAny with
    | some path => some path
    | none =>
      let up := Path.parent folder
      if up == folder then none else configAbove files depth up

/-- The configuration file for a path: the nearest one in its folder or above. -/
def configFor? (files : Files) (path : String) : Option String :=
  let start := files.absolute path
  let folder := if files.hasFile start then Path.parent start else start
  configAbove files (folder.length + 1) folder

end Files

end RubyLint
