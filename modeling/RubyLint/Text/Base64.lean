/-!
# Base 64

Bytes written as characters of six bits each.  Characters that have no place in the writing are
passed over, and two of them at least stand before the padding that ends it.
-/

namespace RubyLint.Base64

def bits? (c : Char) : Option Nat :=
  if 'A' ≤ c && c ≤ 'Z' then some (c.toNat - 65)
  else if 'a' ≤ c && c ≤ 'z' then some (c.toNat - 71)
  else if c.isDigit then some (c.toNat + 4)
  else if c == '+' then some 62
  else if c == '/' then some 63
  else none

/-- The bytes of what follows `place` characters of a group of four, whose bits that make up no
byte yet are `left`, and `pads` padding characters.  A group that is not complete has to be padded.
-/
def decodeFrom (place left pads : Nat) : List Char → Option (List UInt8)
  | [] => if place == 0 then some [] else none
  | c :: rest =>
    if c == '=' then
      if place < 2 then decodeFrom place left pads rest
      else if 4 ≤ place + pads + 1 then some []
      else decodeFrom place left (pads + 1) rest
    else
      match bits? c with
      | none => decodeFrom place left pads rest
      | some bits =>
        match place with
        | 0 => decodeFrom 1 bits 0 rest
        | 1 => (decodeFrom 2 (bits % 16) 0 rest).map (UInt8.ofNat (left * 4 + bits / 16) :: ·)
        | 2 => (decodeFrom 3 (bits % 4) 0 rest).map (UInt8.ofNat (left * 16 + bits / 4) :: ·)
        | _ => (decodeFrom 0 0 0 rest).map (UInt8.ofNat (left * 64 + bits) :: ·)

def decode? (text : List Char) : Option (List UInt8) :=
  decodeFrom 0 0 0 text

end RubyLint.Base64
