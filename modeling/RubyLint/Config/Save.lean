import RubyLint.Config
import RubyLint.Yaml.Write

/-!
# Saving a configuration

A configuration is saved as a mapping of all its fields under their names, those with the standard
values too.
-/

namespace RubyLint.Config

def document (c : Config) : Value :=
  .map (c.fields.map fun field => (.str field.1, field.2))

def saved (c : Config) : String :=
  Yaml.write c.document

end RubyLint.Config
