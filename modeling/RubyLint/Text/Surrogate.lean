/-!
# Surrogates

A code between D800 and DFFF belongs to no character, yet an escape in a text may name one.  Such a
code is kept as the character that has the same last sixteen bits in the last plane, which is left
to private use, and is written as its own code again.
-/

namespace RubyLint.Text

def isSurrogate (code : Nat) : Bool :=
  0xD800 ≤ code && code ≤ 0xDFFF

def ofCode (code : Nat) : Char :=
  Char.ofNat (if isSurrogate code then 0x100000 + code else code)

def codeOf (c : Char) : Nat :=
  if isSurrogate (c.toNat - 0x100000) then c.toNat - 0x100000 else c.toNat

/-- Whether a text comes no later than another one by the codes of their characters. -/
def notAfter (s t : String) : Bool :=
  !(t.toList.map codeOf).lex (s.toList.map codeOf)

end RubyLint.Text
