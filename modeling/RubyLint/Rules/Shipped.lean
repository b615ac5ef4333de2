import RubyLint.Registry
import RubyLint.Rules.ChainBreaks
import RubyLint.Rules.NestedContext
import RubyLint.Rules.Redefinition
import RubyLint.Rules.WrapArguments

/-!
# Shipped rules

The packages of rules that come with the tool.
-/

namespace RubyLint

variable [Machine]

def Catalog.shippedName : String :=
  "cops"

/-- The packages inside the shipped one, in order, with the rules that they offer. -/
def Catalog.shippedParts : List (String × List (Rule Memory)) := [
  ("helpers", []),
  ("layout_multiline_chain_line_breaks", [ChainBreaks.rule]),
  ("layout_wrap_multiline_arguments", [WrapArguments.rule]),
  ("rspec_nested_context_improper_start", [NestedContext.rule]),
  ("rspec_nested_redefinition", [Redefinition.letRule, Redefinition.subjectRule])]

def Catalog.partName (part : String) : String :=
  shippedName ++ "." ++ part

def Catalog.shipped : Catalog :=
  ⟨shippedName, [], shippedParts.map fun part => partName part.1⟩ ::
    shippedParts.map fun part => ⟨partName part.1, part.2.map .fresh, []⟩

/-- The registry that holds what a catalog's shipped package offers, up to a clash. -/
def Registry.standard (catalog : Catalog) : Registry × Option RegistryFault :=
  Registry.empty.discover catalog [Catalog.shippedName]

def Registry.shipped : Registry :=
  (Registry.standard Catalog.shipped).1

end RubyLint
