import RubyLint.Json
import RubyLint.Lint
import RubyLint.Report.Entry
import RubyLint.Text.Template

/-!
# Reports

What a run over many files found, as lines for a reader or as a value for another program.
-/

namespace RubyLint

inductive Report.Format where
  | json
  | pretty
deriving DecidableEq, Repr

/-- What a report is made from.  The measurements are shown as they are given; times are in
milliseconds. -/
structure Report where
  /-- The folder from which the paths of the files are taken. -/
  folder : String
  files : List FileReport
  rules : Nat
  metrics : Table

/-- Why a report cannot be written. -/
inductive ReportFault where
  | unknownFormat (name : String)
  | missingTime
  | time (fault : Template.Fault)

namespace ReportFault

def cls : ReportFault → FaultClass
  | .unknownFormat _ => .value
  | .missingTime => .key
  | .time fault => fault.cls

def message : ReportFault → String
  | .unknownFormat name => s!"Unknown format: {name}"
  | .missingTime => Text.quoted "total_ms"
  | .time fault => fault.message

end ReportFault

namespace Report

variable [Machine]

/-- The names of the forms, in the order in which they are offered. -/
def formatNames : List String :=
  ["json", "pretty"]

def format? (name : String) : Option Format :=
  if name == "json" then some .json else if name == "pretty" then some .pretty else none

/-- The version of the form of reports. -/
def protocol : String :=
  "1"

def version : String :=
  "0.1.0"

def measured (parse rules total : Float) : Table :=
  [(.str "parse_ms", .float parse), (.str "rules_ms", .float rules),
    (.str "total_ms", .float total)]

def texts (r : Report) : Texts :=
  r.files.map fun file => (Path.resolved r.folder file.path, file.text)

def offenses (r : Report) : List Offense :=
  r.files.flatMap fun file => file.offenses.map (·.offense)

/-- What went wrong with a file: why no rule ran, which rules failed, why nothing was corrected. -/
def fileProblems (folder : String) (file : FileReport) : List Value :=
  (file.errorText?.map (problem folder file.path)).toList ++
    file.failures.map (failure folder) ++
    (file.rejectionText?.map (problem folder file.path)).toList

def value (r : Report) : Value :=
  record [("treecop.protocol", .str protocol), ("engine_version", .str version),
    ("files_scanned", .int r.files.length), ("rules_run", .int r.rules),
    ("offenses", .list (r.offenses.map (offense r.folder r.texts))),
    ("failures", .list (r.files.flatMap (fileProblems r.folder))), ("metrics", .map r.metrics)]

/-- What stands before the message of an offense. -/
def marker (file : FileReport) (f : Finding) : String :=
  if file.isApplied f then "[Corrected] "
  else if f.offense.correctable then "[Correctable] "
  else ""

def offenseLine (file : FileReport) (lines : LineIndex) (f : Finding) : String :=
  let (line, column) := lines.position f.offense.start
  let o := f.offense
  let mark := marker file f
  s!"{file.path}:{line}:{column + 1}: {o.severity}: {mark}{o.message} ({o.rule})"

def fileLines (file : FileReport) : List String :=
  let lines := LineIndex.ofBytes (Utf8.encode file.text)
  (file.errorText?.map fun error => s!"{file.path}: error: {error}").toList ++
    file.offenses.map (offenseLine file lines) ++ file.failures.map Failure.describe ++
    (file.rejectionText?.map fun reason => s!"{file.path}: correction rejected: {reason}").toList

def correctedCount (r : Report) : Nat :=
  (r.files.flatMap fun file => file.offenses.filter file.isApplied).length

def summary (r : Report) : String :=
  let corrected := if r.correctedCount == 0 then "" else s!", {r.correctedCount} corrected"
  s!"{r.offenses.length} offense(s) detected{corrected}"

def totalTime (r : Report) : Except ReportFault String := do
  match Table.lookup? r.metrics "total_ms" with
  | none => throw .missingTime
  | some time =>
    let text ← (Template.formatItem (.value time) ".1f".toList).mapError .time
    return String.ofList text

def lines (r : Report) : Except ReportFault (List String) := do
  let time ← r.totalTime
  return [s!"Inspected {r.files.length} files with {r.rules} rules", ""] ++
    r.files.flatMap fileLines ++ ["", r.summary, s!"Total time: {time}ms"]

def render (r : Report) : Format → Except ReportFault String
  | .json => .ok (Json.pretty r.value)
  | .pretty => return "\n".intercalate (← r.lines)

def renderNamed (r : Report) (name : String) : Except ReportFault String :=
  match format? name with
  | some format => r.render format
  | none => .error (.unknownFormat name)

def timeSchema : Schema :=
  .plain [.number] (.least 0)

def schema : Schema :=
  .record [("treecop.protocol", textSchema), ("engine_version", textSchema),
    ("files_scanned", countSchema 0), ("rules_run", countSchema 0),
    ("offenses", .list offenseSchema), ("failures", .list failureSchema),
    ("metrics", .record [("parse_ms", timeSchema), ("rules_ms", timeSchema),
      ("total_ms", timeSchema)] ["parse_ms", "rules_ms", "total_ms"])]
    ["treecop.protocol", "engine_version", "files_scanned", "rules_run", "offenses", "failures",
      "metrics"]

def check (report : Value) : List String :=
  ((schema.message? report).map fun message => s!"Output validation: {message}").toList

end Report

end RubyLint
