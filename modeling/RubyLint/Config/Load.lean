import RubyLint.Config
import RubyLint.Yaml.Build

/-!
# Loading a configuration

A configuration file is merged over the standard configuration: the four plain fields are replaced,
severities and option tables are added.  A file that cannot be used leaves the standard
configuration as it is and gives a warning; keys that no field has are ignored with a warning.
-/

namespace RubyLint

/-- Why a configuration file cannot be used. -/
inductive LoadFault where
  | yaml (fault : Yaml.Fault)
  /-- The document is no mapping. -/
  | notMapping
  /-- A key that no field has is no text, so that the keys cannot be listed. -/
  | oddKey
  | value (fault : ValueFault)
  | isFolder
deriving DecidableEq, Repr

def LoadFault.cls : LoadFault → FaultClass
  | .yaml .malformed => .yaml
  | .yaml .unfinished => .yaml
  | .yaml .undecodable => .decode
  | .yaml .badValue => .value
  | .yaml .emptyScalar => .index
  | .yaml .unknownWord => .key
  | .yaml .noDate => .attribute
  | .yaml .mappingForDate => .type
  | .yaml .tooLarge => .overflow
  | .notMapping => .value
  | .oddKey => .type
  | .value fault => fault.cls
  | .isFolder => .folder

/-- Whether a fault ends the run instead of leaving the standard configuration. -/
def LoadFault.isFatal (fault : LoadFault) : Bool :=
  fault.cls == .index || fault.cls == .key || fault.cls == .overflow

namespace Config

def fieldNames : List String :=
  (fields {}).map (·.1)

def isField (key : Value) : Bool :=
  fieldNames.any fun name => key == .str name

def text? : Value → Option String
  | .str s => some s
  | _ => none

def unknownKeys (document : Table) : Except LoadFault (List String) :=
  match ((document.map (·.1)).filter fun key => !isField key).mapM text? with
  | none => .error .oddKey
  | some keys => .ok (keys.mergeSort Text.notAfter)

/-- The entries of a document; an absent document has none. -/
def documentEntries (document : Value) : Except LoadFault Table :=
  if !document.truthy then .ok []
  else
    match document.opened with
    | .map entries => .ok entries
    | _ => .error .notMapping

def optionTables : Table → Except ValueFault Table
  | [] => .ok []
  | (rule, options) :: rest => do
    let table ← options.toTable
    return (rule, .map table) :: (← optionTables rest)

/-- The entries of the option tables; an absent value has none. -/
def optionEntries (v : Value) : Except ValueFault Table :=
  if !v.truthy then .ok []
  else
    match v.opened with
    | .map entries => .ok entries
    | v => .error (.noAttribute v.typeName "items")

/-- The value of a plain field: that of the document, if it has one. -/
def plainField (document : Table) (name : String) (standard : Value) : Value :=
  (Table.lookup? document name).getD standard

def merge (document : Table) : Except ValueFault Config := do
  let severities ← ((Table.lookup? document "rule_severities").getD .null).toTable
  let options ← optionEntries ((Table.lookup? document "rule_configs").getD .null)
  return {
    enabled := plainField document "enabled_rules" standard.enabled
    disabled := plainField document "disabled_rules" standard.disabled
    limit := plainField document "max_offenses_per_file" standard.limit
    exclude := plainField document "exclude" standard.exclude
    severities := .map severities
    options := .map (← optionTables options) }

def unknownWarning (path : String) (keys : List String) : List Log :=
  if keys.isEmpty then []
  else
    let listed := ", ".intercalate keys
    [.warn "config" s!"Ignoring unknown config keys in {path}: {listed}"]

/-- The configuration of a document, after the warnings that come before anything can fail. -/
def ofDocument (path : String) (document : Value) : List Log × Except LoadFault Config :=
  match documentEntries document with
  | .error fault => ([], .error fault)
  | .ok entries =>
    match unknownKeys entries with
    | .error fault => ([], .error fault)
    | .ok unknown => (unknownWarning path unknown, (merge entries).mapError .value)

/-- The configuration that loading leads to: on a fault, the standard one with a warning. -/
def settle (path : String) (logs : List Log) (loaded : Except LoadFault Config) :
    Except LoadFault (Config × List Log) :=
  match loaded with
  | .ok config => .ok (config, logs)
  | .error fault =>
    if fault.isFatal then .error fault
    else
      .ok (standard,
        logs ++ [.warn "config" s!"Failed to load config from {path}: {fault.cls.name}"])

def ofSource (path : String) (source : Yaml.Source) : Except LoadFault (Config × List Log) :=
  match source.load with
  | .error fault => settle path [] (.error (.yaml fault))
  | .ok document =>
    let (logs, loaded) := ofDocument path document
    settle path logs loaded

def ofText (path text : String) : Except LoadFault (Config × List Log) :=
  ofSource path (.ofText text)

def ofBytes (path : String) (data : List UInt8) : Except LoadFault (Config × List Log) :=
  ofSource path (.ofBytes data)

end Config

end RubyLint
