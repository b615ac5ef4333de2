import RubyLint.CommandLine.Run

/-!
# The program

Reads the files that a command line names, performs the run, writes what it leaves behind.  No
parser is linked in, so that a run gets as far as its configuration and its rules.
-/

namespace RubyLint

/-- Reads what is at a path: the paths of the files at it or below it, with their bytes. -/
partial def readPath (path : String) : IO (List (String × List UInt8)) := do
  try
    let place ← IO.FS.realPath path
    if ← place.isDir then
      let entries ← place.readDir
      let below ← entries.toList.mapM fun entry => readPath (Path.join path entry.fileName)
      return below.flatten
    else
      return [(path, (← IO.FS.readBinFile path).toList)]
  catch _ => return []

/-- The paths that a run may look at: those named, and the places of configuration files. -/
def pathsToRead (folder : String) (arguments : List String) : List String :=
  match Options.ofArguments arguments with
  | .error _ => []
  | .ok options =>
    let start := Path.normalNames (Path.absolute folder (options.paths.head?.getD "."))
    let folders := (List.range (start.length + 1)).map fun n => "/" ++ Path.ofNames (start.take n)
    options.paths ++ options.config.toList ++
      folders.flatMap fun folder => Files.configNames.map (Path.join folder)

def readFiles (folder : String) (arguments : List String) : IO (List (String × List UInt8)) := do
  return (← (pathsToRead folder arguments).mapM readPath).flatten

def writeFiles (files : Files) (before : List (String × List UInt8)) : IO Unit := do
  for (path, data) in before do
    match files.find? path with
    | some (.file new) => if new != data then IO.FS.writeBinFile path ⟨new.toArray⟩
    | _ => pure ()

end RubyLint

open RubyLint in
def main (arguments : List String) : IO UInt32 := do
  let folder := (← IO.currentDir).toString
  let data ← readFiles folder arguments
  let files := data.foldl (fun files entry => files.put entry.1 (.file entry.2)) (.ofFolder folder)
  let run := CommandLine.run { files, parser := none } arguments
  writeFiles run.files data
  for log in run.logs do IO.eprintln log.line
  IO.eprint run.errors
  IO.print run.output
  match run.status with
  | .broken _ message => IO.eprintln message
  | _ => pure ()
  return run.status.code.toUInt32
