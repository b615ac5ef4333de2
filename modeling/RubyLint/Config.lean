import RubyLint.Log
import RubyLint.Offense
import RubyLint.Text.Glob
import RubyLint.Text.Search
import RubyLint.Value.Use

/-!
# Configuration

What a run is configured with.  The fields hold values as they were written, because a value of the
wrong shape is a fault only where it is used: an option table that is none, say, is noticed by the
first rule that asks for its options.
-/

namespace RubyLint

structure Config where
  /-- Patterns of the rules that run. -/
  enabled : Value := .list [.str "*"]
  /-- Patterns of the rules that do not run after all. -/
  disabled : Value := .list []
  /-- The number of offenses shown for a file. -/
  limit : Value := .int 500
  /-- Patterns of paths that are passed over. -/
  exclude : Value := .list []
  /-- Severities by rule. -/
  severities : Value := .map []
  /-- Option tables by rule. -/
  options : Value := .map []

namespace Config

def standard : Config where
  exclude := .list [.str "vendor/**", .str "node_modules/**", .str "tmp/**", .str ".git/**"]

/-- The fields under the names that they have in a configuration file. -/
def fields (c : Config) : List (String × Value) := [
  ("enabled_rules", c.enabled), ("disabled_rules", c.disabled),
  ("max_offenses_per_file", c.limit), ("exclude", c.exclude),
  ("rule_severities", c.severities), ("rule_configs", c.options)]

/-- Sets the field of a name; there may be none. -/
def set? (c : Config) (name : String) (value : Value) : Option Config :=
  match name with
  | "enabled_rules" => some { c with enabled := value }
  | "disabled_rules" => some { c with disabled := value }
  | "max_offenses_per_file" => some { c with limit := value }
  | "exclude" => some { c with exclude := value }
  | "rule_severities" => some { c with severities := value }
  | "rule_configs" => some { c with options := value }
  | _ => none

def optionsFor (c : Config) (rule : String) : Except ValueFault Table :=
  match c.options with
  | .map entries => ((Table.lookup? entries rule).getD .null).toTable
  | v => .error (.noAttribute v.typeName "get")

/-- What is configured as the severity of a rule.  A list and a text may mention the rule, but have
nothing to say about it. -/
def configuredSeverity (c : Config) (rule : String) : Except ValueFault (Option Value) :=
  if !c.severities.truthy then .ok none
  else
    match c.severities with
    | .map entries => .ok (Table.lookup? entries rule)
    | .list items =>
      if items.contains (.str rule) then .error (.badIndex "list" "str") else .ok none
    | .str s =>
      if Text.occursIn rule.toList s.toList then .error (.badTextIndex "str") else .ok none
    | v => .error (.notContainer v.typeName)

/-- The severity of a rule: the configured one if it is a known one, otherwise a default.  A
configured one that is not known is warned about. -/
def severityFor (c : Config) (rule default : String) : Except ValueFault (String × List Log) := do
  match ← c.configuredSeverity rule with
  | none => return (default, [])
  | some v =>
    match Offense.severities.find? fun s => v == .str s with
    | some s => return (s, [])
    | none =>
      return (default, [.warn "config" s!"Unknown severity '{v.text}' configured for {rule}"])

/-- Whether a text matches one of the patterns that a value lists.  Patterns after the first match
are not looked at, so only what comes before it can be a fault. -/
def matchesAny (text : String) : List Value → Except ValueFault Bool
  | [] => .ok false
  | .str pattern :: rest => if Glob.matchesText pattern text then .ok true else matchesAny text rest
  | v :: _ => .error (.notText v.typeName)

def selects (patterns : Value) (text : String) : Except ValueFault Bool := do
  matchesAny text (← patterns.items)

/-- Cuts a list to the configured limit.  A limit that counts as absent is none, and a negative one
says how many to leave out. -/
def cut {α : Type} (limit : Value) (xs : List α) : Except ValueFault (List α) :=
  if !limit.truthy then .ok xs
  else
    match limit with
    | .int n => .ok (if n < xs.length then Indexing.sliceTo xs n else xs)
    | .bool b => .ok (Indexing.sliceTo xs (Value.ofTruth b))
    | .float x => if x < Float.ofNat xs.length then .error .cannotSlice else .ok xs
    | v => .error (.cannotCompare v.typeName)

end Config

end RubyLint
