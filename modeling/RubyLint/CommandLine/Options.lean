import RubyLint.Report

/-!
# Options of a run

What a command line can ask for, the switches that ask for it, and what can be wrong with them.
-/

namespace RubyLint

/-- What a command line asks for. -/
structure Options where
  /-- The files and folders to analyze. -/
  paths : List String := ["."]
  /-- Patterns of the rules that run, with commas between them. -/
  rules : Option String := none
  /-- The path of the configuration file. -/
  config : Option String := none
  /-- Whether corrections are written to the files. -/
  fix : Bool := false
  /-- Whether corrections are only shown. -/
  diff : Bool := false
  format : Report.Format := .pretty
  /-- How many files are analyzed at once; 0 leaves the choice to the program. -/
  jobs : Int := 0
  /-- Whether a machine-readable report is checked against its schema. -/
  validate : Bool := false
  /-- Whether the shipped rules are listed instead of a run. -/
  listRules : Bool := false
  verbose : Bool := false

/-- The switches of the command line. -/
inductive Switch where
  | help
  | rules
  | config
  | fix
  | diff
  | format
  | jobs
  | validate
  | listRules
  | verbose
deriving DecidableEq, Repr

namespace Switch

def all : List Switch :=
  [.help, .rules, .config, .fix, .diff, .format, .jobs, .validate, .listRules, .verbose]

def spellings : Switch → List String
  | .help => ["-h", "--help"]
  | .rules => ["--rules"]
  | .config => ["--config"]
  | .fix => ["--fix", "-a"]
  | .diff => ["--diff"]
  | .format => ["--format"]
  | .jobs => ["--jobs"]
  | .validate => ["--validate"]
  | .listRules => ["--list-rules"]
  | .verbose => ["--verbose", "-v"]

def table : List (String × Switch) :=
  all.flatMap fun switch => switch.spellings.map fun spelling => (spelling, switch)

def find? (spelling : String) : Option Switch :=
  table.lookup spelling

def takesValue : Switch → Bool
  | .rules | .config | .format | .jobs => true
  | _ => false

def label (switch : Switch) : String :=
  "/".intercalate switch.spellings

end Switch

/-- What can be wrong with a command line. -/
inductive UsageFault where
  | ambiguous (argument : String) (candidates : List String)
  | missingValue (switch : Switch)
  | needlessValue (switch : Switch) (value : String)
  | unknownFormat (value : String)
  | notWhole (value : String)
  | unrecognized (arguments : List String)
deriving DecidableEq, Repr

def UsageFault.message : UsageFault → String
  | .ambiguous argument candidates =>
    let listed := ", ".intercalate candidates
    s!"ambiguous option: {argument} could match {listed}"
  | .missingValue switch => s!"argument {switch.label}: expected one argument"
  | .needlessValue switch value =>
    s!"argument {switch.label}: ignored explicit argument {Text.quoted value}"
  | .unknownFormat value =>
    let names := ", ".intercalate (Report.formatNames.map Text.quoted)
    s!"argument {Switch.format.label}: invalid choice: {Text.quoted value} (choose from {names})"
  | .notWhole value =>
    s!"argument {Switch.jobs.label}: invalid int value: {Text.quoted value}"
  | .unrecognized arguments =>
    let listed := " ".intercalate arguments
    s!"unrecognized arguments: {listed}"

/-- Why a command line leads to no run. -/
inductive Refusal where
  | help
  | usage (fault : UsageFault)
deriving DecidableEq, Repr

namespace Options

def turnOn (o : Options) : Switch → Except Refusal Options
  | .help => .error .help
  | .fix => .ok { o with fix := true }
  | .diff => .ok { o with diff := true }
  | .validate => .ok { o with validate := true }
  | .listRules => .ok { o with listRules := true }
  | .verbose => .ok { o with verbose := true }
  | .rules | .config | .format | .jobs => .ok o

def set (o : Options) (switch : Switch) (value : String) : Except Refusal Options :=
  match switch with
  | .rules => .ok { o with rules := some value }
  | .config => .ok { o with config := some value }
  | .format =>
    match Report.format? value with
    | some format => .ok { o with format }
    | none => .error (.usage (.unknownFormat value))
  | .jobs =>
    match Text.readInt? value.toList with
    | some jobs => .ok { o with jobs }
    | none => .error (.usage (.notWhole value))
  | _ => .ok o

end Options

end RubyLint
