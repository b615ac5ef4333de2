/-!
# Classes of faults

A fault that reaches a report is shown with its class in front of its wording.
-/

namespace RubyLint

inductive FaultClass where
  | value
  | type
  | key
  | index
  | attribute
  | runtime
  | pattern
  | decode
  | yaml
  | overflow
  | memory
  | folder
deriving DecidableEq, Repr

def FaultClass.name : FaultClass → String
  | .value => "ValueError"
  | .type => "TypeError"
  | .key => "KeyError"
  | .index => "IndexError"
  | .attribute => "AttributeError"
  | .runtime => "RuntimeError"
  | .pattern => "PatternSyntaxError"
  | .decode => "UnicodeDecodeError"
  | .yaml => "YAMLError"
  | .overflow => "OverflowError"
  | .memory => "MemoryError"
  | .folder => "IsADirectoryError"

end RubyLint
