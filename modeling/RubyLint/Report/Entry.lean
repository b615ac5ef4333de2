import RubyLint.Dispatch
import RubyLint.Files.Path
import RubyLint.Schema

/-!
# Entries of a report

Offenses and failures as values of a machine-readable report, and the schemas of these values.
Paths are absolute, and every range is given both in bytes and in lines and columns.
-/

namespace RubyLint.Report

def record (fields : List (String × Value)) : Value :=
  .map (fields.map fun field => (.str field.1, field.2))

/-- A range in lines, counted from 1, and columns, counted from 0. -/
def range (lines : LineIndex) (start stop : Int) : Value :=
  let (startLine, startColumn) := lines.position start
  let (stopLine, stopColumn) := lines.position stop
  record [("startLine", .int startLine), ("startCol", .int startColumn),
    ("endLine", .int stopLine), ("endCol", .int stopColumn)]

/-- The texts of files by absolute path; the last one of a path counts. -/
abbrev Texts := List (String × String)

/-- The lines of the file of a path; a file without a text is empty. -/
def linesOf (texts : Texts) (path : String) : LineIndex :=
  LineIndex.ofBytes (Utf8.encode ((texts.reverse.lookup path).getD ""))

def edit (lines : LineIndex) (e : Edit) : Value :=
  record [("start_byte", .int e.start), ("end_byte", .int e.stop),
    ("replacement", .str e.replacement), ("range", range lines e.start e.stop)]

def editFields (lines : LineIndex) (o : Offense) : List (String × Value) :=
  if o.correctable then [("autofix", .list (o.edits.map (edit lines)))] else []

def detailFields (o : Offense) : List (String × Value) :=
  if o.details.truthy then [("meta", o.details)] else []

/-- An offense; its file is taken from the working folder. -/
def offense (folder : String) (texts : Texts) (o : Offense) : Value :=
  let path := Path.resolved folder o.file
  let lines := linesOf texts path
  record ([("rule_id", .str o.rule), ("message", .str o.message), ("file_path", .str path),
    ("uri", .str (Path.uri path)), ("start_byte", .int o.start), ("end_byte", .int o.stop),
    ("range", range lines o.start o.stop), ("severity", .str o.severity)] ++
      editFields lines o ++ detailFields o)

/-- A problem with a file that no single rule has. -/
def problem (folder path error : String) : Value :=
  record [("rule_id", .null), ("file_path", .str (Path.resolved folder path)), ("line", .null),
    ("column", .null), ("error", .str error)]

def failure (folder : String) (f : Failure) : Value :=
  record [("rule_id", .str f.rule), ("file_path", .str (Path.resolved folder f.file)),
    ("line", .int f.line), ("column", .int f.column), ("error", .str f.error)]

def textSchema : Schema :=
  .plain [.text] .free

def countSchema (least : Int) : Schema :=
  .plain [.whole] (.least least)

def rangeSchema : Schema :=
  .record [("startLine", countSchema 1), ("startCol", countSchema 0), ("endLine", countSchema 1),
    ("endCol", countSchema 0)] ["startLine", "startCol", "endLine", "endCol"]

def editSchema : Schema :=
  .record [("start_byte", countSchema 0), ("end_byte", countSchema 0), ("replacement", textSchema),
    ("range", rangeSchema)] ["start_byte", "end_byte", "replacement", "range"]

def offenseSchema : Schema :=
  .record [("rule_id", textSchema), ("message", .plain [.text] .nonEmpty),
    ("file_path", textSchema), ("uri", textSchema), ("start_byte", countSchema 0),
    ("end_byte", countSchema 0), ("range", rangeSchema),
    ("severity", .plain [.text] (.oneOf Offense.severities)), ("autofix", .list editSchema),
    ("meta", .plain [.record] .free)]
    ["rule_id", "message", "file_path", "uri", "start_byte", "end_byte", "range", "severity"]

def failureSchema : Schema :=
  .record [("rule_id", .plain [.text, .absent] .free), ("file_path", textSchema),
    ("line", .plain [.whole, .absent] (.least 1)), ("column", .plain [.whole, .absent] (.least 0)),
    ("error", textSchema)] ["rule_id", "file_path", "error"]

def checkOffenses (offenses : List Value) : List String :=
  (offenses.mapIdx fun i value =>
    ((offenseSchema.message? value).map fun message => s!"Offense {i}: {message}").toList).flatten

end RubyLint.Report
