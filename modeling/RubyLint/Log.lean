/-!
# Log

What a run tells its user besides its report.
-/

namespace RubyLint

/-- How much a message matters. -/
inductive LogLevel where
  | warning
  | error
deriving DecidableEq, Repr

/-- A message of one part of the program. -/
structure Log where
  level : LogLevel
  origin : String
  message : String
deriving DecidableEq, Repr

namespace Log

def warn (origin message : String) : Log :=
  ⟨.warning, "treecop." ++ origin, message⟩

def error (origin message : String) : Log :=
  ⟨.error, "treecop." ++ origin, message⟩

def line (l : Log) : String :=
  let level := match l.level with
    | .warning => "WARNING"
    | .error => "ERROR"
  s!"{level} {l.origin}: {l.message}"

end Log

end RubyLint
