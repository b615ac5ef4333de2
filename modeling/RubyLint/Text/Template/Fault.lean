import RubyLint.Value.Use

/-!
# Faults of templates

Why a message template cannot be filled, with the wording that a report shows.
-/

namespace RubyLint.Template

/-- Why a template cannot be filled. -/
inductive Fault where
  | singleOpen
  | singleClose
  | unclosedField
  | openInName
  | unclosedFormat
  | noConversion
  | textAfterConversion
  | unknownConversion (c : Char)
  | tooDeep
  | unknownField (name : String)
  | positional (index : Nat)
  | emptyStep
  | strayStep
  | outOfRange (sequence : String)
  | unknownKey (key : String)
  | noMissingBracket
  | badFormat (format type : String)
  | noPrecision
  | unknownType (c : Char) (type : String)
  | twoGroupings
  | groupingWith (grouping c : Char)
  | notAllowed (what : String)
  | noFormat (type : String)
  | noCharacter
  | hugeCharacter
  | tooManyDigits
  | tooPrecise
  | tooLong
  | tooLarge
  | noTypeAttribute (type name : String)
  | noTypeIndex (type : String)
  | use (fault : ValueFault)
deriving DecidableEq, Repr

def Fault.cls : Fault → FaultClass
  | .unknownField _ => .key
  | .unknownKey _ => .key
  | .positional _ => .index
  | .outOfRange _ => .index
  | .noFormat _ => .type
  | .noCharacter => .overflow
  | .hugeCharacter => .overflow
  | .tooLarge => .overflow
  | .noTypeAttribute _ _ => .attribute
  | .noTypeIndex _ => .type
  | .use fault => fault.cls
  | _ => .value

def Fault.message : Fault → String
  | .singleOpen => "Single '\x7b' encountered in format string"
  | .singleClose => "Single '\x7d' encountered in format string"
  | .unclosedField => "expected '\x7d' before end of string"
  | .openInName => "unexpected '\x7b' in field name"
  | .unclosedFormat => "unmatched '\x7b' in format spec"
  | .noConversion => "end of string while looking for conversion specifier"
  | .textAfterConversion => "expected ':' after conversion specifier"
  | .unknownConversion c =>
    if 32 < c.toNat && c.toNat < 127 then s!"Unknown conversion specifier {c}"
    else "Unknown conversion specifier \\x" ++ String.ofList (Nat.toDigits 16 c.toNat)
  | .tooDeep => "Max string recursion exceeded"
  | .unknownField name => Text.quoted name
  | .positional index =>
    s!"Replacement index {index} out of range for positional args tuple"
  | .emptyStep => "Empty attribute in format string"
  | .strayStep => "Only '.' or '[' may follow ']' in format field specifier"
  | .outOfRange sequence => s!"{sequence}index out of range"
  | .unknownKey key => key
  | .noMissingBracket => "Missing ']' in format string"
  | .badFormat format type => s!"Invalid format specifier '{format}' for object of type '{type}'"
  | .noPrecision => "Format specifier missing precision"
  | .unknownType c type => s!"Unknown format code '{c}' for object of type '{type}'"
  | .twoGroupings => "Cannot specify both ',' and '_'."
  | .groupingWith grouping c => s!"Cannot specify '{grouping}' with '{c}'."
  | .notAllowed what => what
  | .noFormat type => s!"unsupported format string passed to {type}.__format__"
  | .noCharacter => "%c arg not in range(0x110000)"
  | .hugeCharacter => "Python int too large to convert to C long"
  | .tooManyDigits => "Too many decimal digits in format string"
  | .tooPrecise => "precision too big"
  | .tooLong => s!"Exceeds the limit ({Text.digitLimit} digits) for integer string conversion; " ++
      "use sys.set_int_max_str_digits() to increase the limit"
  | .tooLarge => "int too large to convert to float"
  | .noTypeAttribute type name => s!"type object '{type}' has no attribute '{name}'"
  | .noTypeIndex type => s!"type '{type}' is not subscriptable"
  | .use fault => fault.message

end RubyLint.Template
