import RubyLint.Dispatch
import RubyLint.Edit.Correction
import RubyLint.Grammar
import RubyLint.Suppression
import RubyLint.Tree.Parsed

/-!
# Linting one text

A text is parsed, the rules run over its tree, suppressed offenses are dropped, and the edits of the
others are composed into a corrected text.  `Lint` is the plain form of this: what it finds and the
corrected text, or a fault.  `FileReport` is the form for a run over many files: a file that cannot
be read or does not parse is an entry of its own, and edits that cannot be applied leave the
offenses as they are.
-/

namespace RubyLint

abbrev Parser := Option (String → ParseTree)

/-- Parses a text; no document without a parser. -/
def Parser.document? (parser : Parser) (path text : String) : Except TreeFault (Option Document) :=
  match parser with
  | none => .ok none
  | some parse => (Document.ofParse path text (parse text)).map some

/-- Why a run over a text breaks off. -/
inductive RunFault where
  | tree (fault : TreeFault)
  | value (fault : ValueFault)
  | undecodable (error : Utf8.DecodeError)

def RunFault.cls : RunFault → FaultClass
  | .tree _ => .value
  | .value fault => fault.cls
  | .undecodable _ => .decode

def RunFault.message : RunFault → String
  | .tree fault => fault.message
  | .value fault => fault.message
  | .undecodable error => error.message

/-- Why a text cannot be linted and corrected. -/
inductive LintFault where
  | noParser (path : String)
  | run (fault : RunFault)
  /-- The edits do not fit together; the offenses that were emitted are still known. -/
  | edits (emitted : List Finding) (fault : EditFault)

def LintFault.noParserMessage (path : String) : String :=
  s!"No {Grammar.language} parser available for {path}"

/-- What linting and correcting a text found. -/
structure Lint where
  investigation : Investigation
  /-- The findings that are not suppressed, rule by rule. -/
  findings : List Finding
  correction : Correction

/-- The findings of an investigation that the text does not suppress, rule by rule. -/
def Investigation.kept (i : Investigation) (text : String) : List Finding :=
  Suppression.keep text i.ordered

def Lint.ofText (parser : Parser) (d : Dispatcher) (path text : String) :
    Except LintFault Lint := do
  match ← (parser.document? path text).mapError (.run <| .tree ·) with
  | none => throw (.noParser path)
  | some document =>
    let investigation ← (d.investigate document).mapError (.run <| .value ·)
    let findings := investigation.kept text
    match Correction.ofFindings investigation.ranks text findings with
    | .ok correction => return ⟨investigation, findings, correction⟩
    | .error (.edit fault) => throw (.edits investigation.findings fault)
    | .error (.undecodable error) => throw (.run (.undecodable error))

/-- Everything that a run learns about one file. -/
structure FileReport where
  path : String
  text : String := ""
  offenses : List Finding := []
  failures : List Failure := []
  /-- The corrected text, if correcting was asked for and changed anything. -/
  corrected : Option String := none
  applied : List Finding := []
  /-- Why no rule ran. -/
  error : Option String := none
  /-- Why nothing was corrected. -/
  rejection : Option String := none

namespace FileReport

def isApplied (r : FileReport) (f : Finding) : Bool :=
  r.applied.any (·.serial == f.serial)

def remaining (r : FileReport) : List Finding :=
  r.offenses.filter fun f => !r.isApplied f

def errorText? (r : FileReport) : Option String :=
  r.error.filter (· != "")

def rejectionText? (r : FileReport) : Option String :=
  r.rejection.filter (· != "")

def unreadable (path reason : String) : FileReport × List Log :=
  ({ path, error := some s!"Failed to read file: {reason}" },
    [.warn "runner" s!"Failed to read {path}: {reason}"])

/-- The report with the corrected text of some findings, or with the reason why there is none. -/
def correct (r : FileReport) (ranks : Finding.Ranks) (findings : List Finding) :
    Except RunFault FileReport × List Log :=
  match Correction.ofFindings ranks r.text findings with
  | .ok correction =>
    (.ok { r with
      applied := correction.applied
      corrected := if correction.text == r.text then none else some correction.text }, [])
  | .error (.edit fault) =>
    (.ok { r with rejection := some fault.message },
      [.warn "runner" s!"Not correcting {r.path}: {fault.message}"])
  | .error (.undecodable error) => (.error (.undecodable error), [])

/-- The report with some findings as its offenses: by place, and cut to a limit. -/
def withOffenses (r : FileReport) (ranks : Finding.Ranks) (limit : Value)
    (findings : List Finding) : Except RunFault FileReport := do
  let shown ← (Config.cut limit (Finding.byPlace ranks findings)).mapError .value
  return { r with offenses := shown }

def ofInvestigation (i : Investigation) (limit : Value) (fix : Bool) (path text : String) :
    Except RunFault FileReport × List Log :=
  let findings := i.kept text
  let report : FileReport := { path, text, failures := i.failures }
  let (corrected, logs) := if fix then report.correct i.ranks findings else (.ok report, [])
  (corrected.bind fun report => report.withOffenses i.ranks limit findings, i.logs ++ logs)

/-- The report of a text, and what is logged on the way, also if a fault breaks it off. -/
def ofText (parser : Parser) (d : Dispatcher) (limit : Value) (fix : Bool) (path text : String) :
    Except RunFault FileReport × List Log :=
  match parser.document? path text with
  | .error fault => (.error (.tree fault), [])
  | .ok none =>
    (.ok { path, text, error := some s!"No {Grammar.language} parser available" }, [])
  | .ok (some document) =>
    match document.faults with
    | [] =>
      match d.investigate document with
      | .error fault => (.error (.value fault), [])
      | .ok i => ofInvestigation i limit fix path text
    | (line, column) :: _ =>
      (.ok { path, text, error := some s!"Syntax error at {line}:{column}" },
        [.warn "runner" s!"Skipping {path}: syntax error at {line}:{column}"])

end FileReport

/-- The dispatcher of the rules that patterns select, or the configuration if no pattern is given.
Only rules for the language of the grammar take part. -/
def Dispatcher.ofConfig (registry : Registry) (config : Config) (patterns : Value) :
    Except ValueFault Dispatcher := do
  let patterns := if patterns.truthy then patterns else config.enabled
  let rules ← registry.select patterns config.disabled
  let rules := rules.filter fun rule => rule.info.languages.contains Grammar.language
  return ⟨.ofEntries (rules.map fun rule => ⟨rule, none⟩), some config, none⟩

end RubyLint
