import RubyLint.Text.Class
import RubyLint.Text.Surrogate

/-!
# Quoted text

How a text is shown inside a message: between single quotes, or between double quotes when it holds
a single quote and no double one.  The quote in use and the backslash are escaped, the three common
controls have short escapes, and everything that is not printable is written by its code point.
-/

namespace RubyLint.Text

def hexDigit (n : Nat) : Char :=
  if n < 10 then Char.ofNat (48 + n) else Char.ofNat (87 + n)

/-- The last `width` hexadecimal digits of a number, zeros in front. -/
def hexDigits (width n : Nat) : List Char :=
  match width with
  | 0 => []
  | width + 1 => hexDigits width (n / 16) ++ [hexDigit (n % 16)]

/-- The escape of a character by its code point, as short as it allows. -/
def codeEscape (code : Nat) : List Char :=
  if code < 0x100 then '\\' :: 'x' :: hexDigits 2 code
  else if code < 0x10000 then '\\' :: 'u' :: hexDigits 4 code
  else '\\' :: 'U' :: hexDigits 8 code

/-- One character of a text quoted by `quote`. -/
def quoteChar (quote c : Char) : List Char :=
  if c == quote || c == '\\' then ['\\', c]
  else if c == '\t' then ['\\', 't']
  else if c == '\n' then ['\\', 'n']
  else if c == '\r' then ['\\', 'r']
  else if isPrintable c then [c]
  else codeEscape (codeOf c)

def quoted (text : String) : String :=
  let s := text.toList
  let quote := if s.contains '\'' && !s.contains '"' then '"' else '\''
  String.ofList (quote :: s.flatMap (quoteChar quote) ++ [quote])

end RubyLint.Text
