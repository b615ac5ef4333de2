import RubyLint.CommandLine.Reading
import RubyLint.Config.Load
import RubyLint.Edit.Diff
import RubyLint.Files.Collect
import RubyLint.Rules.Shipped

/-!
# Runs

A run from its command line to its exit status.  A run is a function of the arguments, the files,
the parser and the rules; what it leaves behind is a value that holds the files afterwards, what was
written to the two output streams, and the log.
-/

namespace RubyLint

/-- What a run works with. -/
structure Setting where
  files : Files
  parser : Parser
  /-- Rules that take the place of the shipped ones. -/
  rules : Option (List (Rule Memory)) := none

/-- How a run ends. -/
inductive Status where
  /-- Nothing is left to complain about. -/
  | clean
  /-- Offenses are left, or a file could not be analyzed or corrected. -/
  | offenses
  /-- The run could not take place, or its report is wrong. -/
  | failed
  /-- The command line asked for help. -/
  | help
  /-- The command line is wrong. -/
  | usage
  /-- A fault that the run has no answer to. -/
  | broken (cls : FaultClass) (message : String)
deriving DecidableEq, Repr

def Status.code : Status → Nat
  | .clean | .help => 0
  | .offenses | .broken _ _ => 1
  | .failed | .usage => 2

/-- A run that is over: how it ended and what it leaves behind. -/
structure Run where
  status : Status
  output : String := ""
  errors : String := ""
  files : Files
  logs : List Log := []

namespace CommandLine

variable [Machine]

def program : String :=
  "treecop"

def helpText : String :=
  let switches := Switch.all.map fun switch => " [" ++ switch.label ++ "]"
  s!"usage: {program}{String.join switches} [paths ...]\n"

/-- The path of the configuration file: the one asked for, or the nearest one to the first path. -/
def configPath? (files : Files) (o : Options) : Option String :=
  match o.config.filter (· != "") with
  | some path => some path
  | none => files.configFor? (o.paths.head?.getD ".")

/-- The configuration at a path; the standard one if there is nothing. -/
def loadConfig (files : Files) (path? : Option String) : Except LoadFault (Config × List Log) :=
  match path? with
  | none => .ok (.standard, [])
  | some path =>
    match files.find? path with
    | none => .ok (.standard, [])
    | some (.file data) => Config.ofBytes path data
    | some (.folder _) => Config.settle path [] (.error .isFolder)

/-- The root from which exclude patterns are taken: the folder of the configuration file, or the
working folder. -/
def root (files : Files) : Option String → String
  | none => files.folder
  | some path => Path.parent (files.absolute path)

/-- The patterns that a command line selects rules with; none if it does not. -/
def rulePatterns (o : Options) : Value :=
  match o.rules.filter (· != "") with
  | none => .null
  | some rules =>
    .list ((rules.toList.splitOn ',').map fun part => .str (String.ofList (Text.trim part)))

/-- Why there are no rules to run. -/
inductive RulesFault where
  | registry (fault : RegistryFault)
  | value (fault : ValueFault)

def dispatcher (setting : Setting) (config : Config) (o : Options) :
    Except RulesFault Dispatcher :=
  match setting.rules with
  | some rules => (Dispatcher.ofRules rules (some config)).mapError .registry
  | none => (Dispatcher.ofConfig .shipped config (rulePatterns o)).mapError .value

def ruleLine (info : RuleInfo) : String :=
  let flag := if info.autocorrect then " (autocorrect)" else ""
  s!"{info.id}{flag}: {info.description}\n"

/-- Whether corrections are worked out. -/
def corrects (o : Options) : Bool :=
  o.fix || o.diff

/-- The report of the file at a path, and what is logged on the way. -/
def analyze (setting : Setting) (d : Dispatcher) (limit : Value) (fix : Bool) (path : String) :
    Except RunFault FileReport × List Log :=
  let unreadable (reason : String) :=
    let (report, logs) := FileReport.unreadable path reason
    (Except.ok report, logs)
  match setting.files.find? path with
  | some (.file data) =>
    match Utf8.decode data with
    | .ok text => FileReport.ofText setting.parser d limit fix path text
    | .error error => unreadable error.message
  | _ => unreadable s!"no such file: {path}"

def inTurn (o : Options) (count : Nat) : Bool :=
  if o.jobs == 0 then count ≤ 1 else o.jobs ≤ 1

/-- What is logged while files are analyzed: one after the other, nothing comes after a fault. -/
def analysisLogs (inTurn : Bool) : List (Except RunFault FileReport × List Log) → List Log
  | [] => []
  | (result, logs) :: rest =>
    logs ++ match result with
      | .ok _ => analysisLogs inTurn rest
      | .error _ => if inTurn then [] else analysisLogs inTurn rest

def written (files : Files) (reports : List FileReport) : Files :=
  reports.foldl (fun files report =>
    match report.corrected with
    | some text => files.put report.path (.file (Utf8.encode text))
    | none => files) files

def diffs (reports : List FileReport) : String :=
  String.join (reports.map fun report =>
    match report.corrected with
    | some text => Diff.unified report.path report.text text
    | none => "")

def statusOf (fix : Bool) (reports : List FileReport) : Status :=
  if reports.any fun r => r.errorText?.isSome || r.rejectionText?.isSome then .offenses
  else if reports.any fun r => !(if fix then r.remaining else r.offenses).isEmpty then .offenses
  else .clean

/-- What is wrong with the report, if it is to be checked. -/
def reportFaults (o : Options) (report : Report) : List String :=
  if o.validate && o.format == .json then Report.check report.value else []

/-- Ends a run whose files are analyzed: corrections are written or shown, and the report is. -/
def conclude (setting : Setting) (o : Options) (rules : Nat) (reports : List FileReport) : Run :=
  let report : Report :=
    { folder := setting.files.folder, files := reports, rules, metrics := Report.measured 0 0 0 }
  let files := if o.fix && !o.diff then written setting.files reports else setting.files
  let shown := if o.diff then diffs reports else ""
  match report.render o.format with
  | .error fault => { status := .broken fault.cls fault.message, output := shown, files }
  | .ok text =>
    match reportFaults o report with
    | [] =>
      { status := statusOf (corrects o) reports
        output := if o.diff then shown else text ++ "\n"
        files }
    | faults =>
      let listed := String.join (faults.map fun fault => "  " ++ fault ++ "\n")
      { status := .failed, output := shown, errors := "JSON validation errors:\n" ++ listed, files }

def analyzeAll (setting : Setting) (o : Options) (config : Config) (d : Dispatcher)
    (paths : List String) : Run :=
  let results := paths.map (analyze setting d config.limit (corrects o))
  let logs := analysisLogs (inTurn o paths.length) results
  match results.mapM (·.1) with
  | .error fault =>
    { status := .broken fault.cls fault.message, files := setting.files, logs }
  | .ok reports =>
    let rest := conclude setting o d.rules.length reports
    { rest with logs := logs ++ rest.logs }

def analyzeFiles (setting : Setting) (o : Options) (config : Config) (root : String)
    (d : Dispatcher) : Run :=
  let files := setting.files
  let logs := (files.list o.paths).2
  match files.collect o.paths config.exclude root with
  | .error fault => { status := .broken fault.cls fault.message, files, logs }
  | .ok [] => { status := .failed, errors := "No files found to analyze\n", files, logs }
  | .ok paths =>
    let rest := analyzeAll setting o config d paths
    { rest with logs := logs ++ rest.logs }

def runWith (setting : Setting) (o : Options) (config : Config) (root : String) : Run :=
  let files := setting.files
  match dispatcher setting config o with
  | .error (.value fault) => { status := .broken fault.cls fault.message, files }
  | .error (.registry fault) =>
    { status := .failed, files
      logs := [.error "runner" s!"Failed to load rules: {fault.message}"] }
  | .ok d =>
    if o.listRules then
      { status := .clean
        output := String.join (Registry.shipped.rules.map fun rule => ruleLine rule.info)
        files }
    else if setting.parser.isNone then
      { status := .failed, files
        logs := [.warn "ruby_adapter" "tree-sitter-ruby not available",
          .error "runner" "tree-sitter-ruby is not installed"] }
    else analyzeFiles setting o config root d

def runOptions (setting : Setting) (o : Options) : Run :=
  let files := setting.files
  let path? := configPath? files o
  match loadConfig files path? with
  | .error fault => { status := .broken fault.cls fault.cls.name, files }
  | .ok (config, logs) =>
    let rest := runWith setting o config (root files path?)
    { rest with logs := logs ++ rest.logs }

def run (setting : Setting) (arguments : List String) : Run :=
  match Options.ofArguments arguments with
  | .ok options => runOptions setting options
  | .error .help => { status := .help, output := helpText, files := setting.files }
  | .error (.usage fault) =>
    { status := .usage, errors := s!"{program}: error: {fault.message}\n", files := setting.files }

end CommandLine

end RubyLint
