import RubyLint.Yaml.Token

/-!
# YAML sources

What a reader of YAML is given.  A text is loaded piece by piece, as far as it is asked for, and a
piece is refused as a whole if it holds a character that a YAML text may not hold or bytes that are
no UTF-8.  A source is therefore the characters of the pieces that can be loaded, and the fault of
the first one that cannot.
-/

namespace RubyLint.Yaml

/-- The characters that can be read, and the fault that stops a reader who asks for more. -/
structure Source where
  text : List Char
  stop : Option Fault := none

namespace Source

/-- The number of characters of a piece; the first load takes two of them. -/
def piece : Nat :=
  4096

/-- The number of bytes that are decoded together. -/
def block : Nat :=
  8192

/-- The number of characters of the pieces that lie before the one of a character. -/
def loadedBefore (index : Nat) : Nat :=
  if index < 2 * piece then 0 else index / piece * piece

/-- A character that a YAML text may hold. -/
def isReadable (c : Char) : Bool :=
  let code := c.toNat
  code == 9 || code == 10 || code == 13 || (32 ≤ code && code ≤ 126) || code == 0x85 ||
    (0xA0 ≤ code && code ≤ 0xD7FF) || (0xE000 ≤ code && code ≤ 0xFFFD) || 0x10000 ≤ code

/-- Refuses the piece with the first character that may not stand in a text. -/
def check (s : Source) : Source :=
  match s.text.findIdx? fun c => !isReadable c with
  | none => s
  | some index => ⟨s.text.take (loadedBefore index), some .malformed⟩

/-- A text with every line end as a line feed. -/
def unifyLines : List Char → List Char
  | [] => []
  | '\r' :: '\n' :: rest => '\n' :: unifyLines rest
  | '\r' :: rest => '\n' :: unifyLines rest
  | c :: rest => c :: unifyLines rest

def ofText (text : String) : Source :=
  check ⟨unifyLines text.toList, none⟩

/-- The source of bytes.  Blocks of bytes before the first one that is no UTF-8 can be read; that
the last character is not complete shows only at the end. -/
def ofBytes (data : List UInt8) : Source :=
  match Utf8.decode data with
  | .ok text => ofText text
  | .error e =>
    let length := if e.defect == .truncated then e.offset else e.offset / block * block
    let text := unifyLines (Utf8.decodeLossy (data.take length)).toList
    check ⟨text.take (loadedBefore text.length), some .undecodable⟩

end Source

end RubyLint.Yaml
