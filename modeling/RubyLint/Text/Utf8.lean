/-!
# UTF-8

Encoding of a text as bytes, and two ways back.  Both read the bytes as a sequence of pieces: a
character, or a maximal ill-formed run, that is, a byte that starts no character or a start whose
continuation breaks off.  Strict decoding refuses the first ill-formed run and says where and why;
lenient decoding shows each of them as one replacement character.
-/

namespace RubyLint.Utf8

def encodeChars (s : List Char) : List UInt8 :=
  s.flatMap String.utf8EncodeChar

def encode (text : String) : List UInt8 :=
  encodeChars text.toList

/-- Why a run of bytes is no character. -/
inductive Defect where
  /-- The byte starts no character. -/
  | badStart
  /-- The next byte does not continue the character. -/
  | badContinuation
  /-- The bytes end inside the character. -/
  | truncated
deriving DecidableEq, Repr

/-- What a stretch of bytes stands for. -/
inductive Piece where
  | char (c : Char)
  /-- An ill-formed run of `size` bytes. -/
  | damage (size : Nat) (defect : Defect)
deriving DecidableEq

/-- A character under way: the bits read so far, the number of bytes read and of bytes still to
come, and the bounds of the next byte. -/
structure Partial where
  bits : Nat
  seen : Nat
  missing : Nat
  low : UInt8
  high : UInt8
deriving DecidableEq

/-- Reads a byte where a character may start: a whole character, a lone damaged byte, or a start.
The bounds of the second byte exclude overlong forms, surrogates and values above U+10FFFF. -/
def start (b : UInt8) : List Piece × Option Partial :=
  if b < 0x80 then ([.char (Char.ofNat b.toNat)], none)
  else if b < 0xC2 then ([.damage 1 .badStart], none)
  else if b < 0xE0 then ([], some ⟨b.toNat % 32, 1, 1, 0x80, 0xBF⟩)
  else if b < 0xF0 then
    ([], some ⟨b.toNat % 16, 1, 2, if b = 0xE0 then 0xA0 else 0x80,
      if b = 0xED then 0x9F else 0xBF⟩)
  else if b < 0xF5 then
    ([], some ⟨b.toNat % 8, 1, 3, if b = 0xF0 then 0x90 else 0x80,
      if b = 0xF4 then 0x8F else 0xBF⟩)
  else ([.damage 1 .badStart], none)

/-- Reads one more byte.  A byte that does not continue the character under way ends it as damage
and is read again where a character may start. -/
def step : Option Partial → UInt8 → List Piece × Option Partial
  | none, b => start b
  | some p, b =>
    if p.low ≤ b ∧ b ≤ p.high then
      let bits := p.bits * 64 + b.toNat % 64
      if p.missing = 1 then ([.char (Char.ofNat bits)], none)
      else ([], some ⟨bits, p.seen + 1, p.missing - 1, 0x80, 0xBF⟩)
    else (.damage p.seen .badContinuation :: (start b).1, (start b).2)

/-- The pieces of the bytes that follow a character under way. -/
def piecesFrom : Option Partial → List UInt8 → List Piece
  | none, [] => []
  | some p, [] => [.damage p.seen .truncated]
  | state, b :: rest => (step state b).1 ++ piecesFrom (step state b).2 rest

def pieces (bytes : List UInt8) : List Piece :=
  piecesFrom none bytes

/-- Lenient decoding: one replacement character for each ill-formed run. -/
def decodeLossy (bytes : List UInt8) : String :=
  String.ofList ((pieces bytes).map fun
    | .char c => c
    | .damage _ _ => Char.ofNat 0xFFFD)

/-- The first ill-formed run of a byte sequence: its offset, its length, its first byte and what is
wrong with it. -/
structure DecodeError where
  offset : Nat
  size : Nat
  first : UInt8
  defect : Defect
deriving DecidableEq

/-- The characters of a sequence of pieces, or the offset and the kind of its first damage.  The
offset counts from `offset`. -/
def collect (offset : Nat) : List Piece → Except (Nat × Nat × Defect) (List Char)
  | [] => .ok []
  | .char c :: rest => (collect (offset + c.utf8Size) rest).map (c :: ·)
  | .damage size defect :: _ => .error (offset, size, defect)

def decode (bytes : List UInt8) : Except DecodeError String :=
  match collect 0 (pieces bytes) with
  | .ok s => .ok (String.ofList s)
  | .error (offset, size, defect) => .error ⟨offset, size, bytes.getD offset 0, defect⟩

def Defect.message : Defect → String
  | .badStart => "invalid start byte"
  | .badContinuation => "invalid continuation byte"
  | .truncated => "unexpected end of data"

def hexByte (b : UInt8) : String :=
  let digit (n : Nat) : Char := if n < 10 then Char.ofNat (48 + n) else Char.ofNat (87 + n)
  String.ofList [digit (b.toNat / 16), digit (b.toNat % 16)]

/-- The wording of a decoding error: the byte itself when the run is a single byte, otherwise its
first and last offset. -/
def DecodeError.message (e : DecodeError) : String :=
  let place :=
    if e.size == 1 then s!"byte 0x{hexByte e.first} in position {e.offset}"
    else s!"bytes in position {e.offset}-{e.offset + e.size - 1}"
  s!"'utf-8' codec can't decode {place}: {e.defect.message}"

end RubyLint.Utf8
