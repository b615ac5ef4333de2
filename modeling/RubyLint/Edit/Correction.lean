import RubyLint.Offense

/-!
# Corrections

The edits of all offenses of one text, composed and applied in one pass.  Edits are added rule by
rule in the order of registration and, within a rule, in the order of emission; that settles the
order of insertions at one offset.
-/

namespace RubyLint

/-- A corrected text and the findings whose edits went into it. -/
structure Correction where
  text : String
  applied : List Finding

namespace Correction

/-- The findings that carry edits, in the order in which their edits are added. -/
def toApply (ranks : Finding.Ranks) (findings : List Finding) : List Finding :=
  (Finding.byRule ranks findings).filter fun f => f.offense.correctable

def script (text : String) (findings : List Finding) : EditScript :=
  findings.foldl (fun s f => s.extend f.offense.edits (some f.offense.rule)) (.ofSource text)

def ofFindings (ranks : Finding.Ranks) (text : String) (findings : List Finding) :
    Except ApplyFault Correction :=
  let applied := toApply ranks findings
  if applied.isEmpty then .ok ⟨text, []⟩
  else (script text applied).apply.map fun corrected => ⟨corrected, applied⟩

end Correction

end RubyLint
