import RubyLint.Text.Class
import RubyLint.Yaml.Scalar
import RubyLint.Yaml.Source

/-!
# Scanning YAML

A scanner turns a text into tokens.  A key of a mapping is known as such only when its colon is
read, so the scanner remembers, for every depth of flow brackets, where a key may have started, and
puts the tokens for it in place afterwards.  Such a key lies on one line and within 1024 characters;
one that stands where only a key may stand must turn out to be a key.

Scanning goes on only as far as tokens are asked for.  So a fault stands behind the tokens that
could be told apart before it: those that come before every place where a key may have started.
-/

namespace RubyLint.Yaml

/-- A place where a key may have started: the number of its first token, and whether it has to be a
key. -/
structure KeyStart where
  number : Nat
  required : Bool
  index : Nat
  line : Nat
  column : Nat

/-- The state of a scanner: the text ahead, the tokens so far with the newest first, their number,
the depth of flow brackets, the indentation of the current block and of the blocks around it,
whether a key may start here, and where keys may have started. -/
structure Scanner where
  ahead : Ahead
  tokens : List Token := []
  count : Nat := 0
  flow : Nat := 0
  indent : Int := -1
  outer : List Int := []
  keyAllowed : Bool := true
  keys : List (Nat × KeyStart) := []

namespace Scanner

def emit (s : Scanner) (t : Token) : Scanner :=
  { s with tokens := t :: s.tokens, count := s.count + 1 }

def emitAt (s : Scanner) (number : Nat) (t : Token) : Scanner :=
  { s with tokens := s.tokens.insertIdx (s.count - number) t, count := s.count + 1 }

def take (s : Scanner) (length : Nat) (t : Token) : Scanner :=
  { s.emit t with ahead := s.ahead.forward length }

def isStale (s : Scanner) (k : KeyStart) : Bool :=
  k.line != s.ahead.line || 1024 < s.ahead.index - k.index

/-- Gives up places that can no longer start a key. -/
def dropStale (s : Scanner) : Except Fault Scanner :=
  if s.keys.any fun entry => s.isStale entry.2 && entry.2.required then .error .malformed
  else .ok { s with keys := s.keys.filter fun entry => !s.isStale entry.2 }

def dropKey (s : Scanner) : Except Fault Scanner :=
  match s.keys.lookup s.flow with
  | none => .ok s
  | some k =>
    if k.required then .error .malformed
    else .ok { s with keys := s.keys.filter fun entry => entry.1 != s.flow }

def saveKey (s : Scanner) : Except Fault Scanner := do
  if !s.keyAllowed then return s
  let s ← s.dropKey
  let a := s.ahead
  let required := s.flow == 0 && s.indent == a.column
  let start : KeyStart := ⟨s.count, required, a.index, a.line, a.column⟩
  return { s with keys := (s.flow, start) :: s.keys }

/-- Sets whether a key may start here. -/
def allowKey (s : Scanner) (allowed : Bool) : Scanner :=
  { s with keyAllowed := allowed }

def closeBlocks (column : Int) : List Int → Scanner → Scanner
  | [], s => s
  | up :: outer, s =>
    if s.indent > column then
      closeBlocks column outer ({ s with indent := up, outer }.emit .blockEnd)
    else s

/-- Closes blocks, unless inside flow brackets. -/
def unwind (s : Scanner) (column : Int) : Scanner :=
  if s.flow == 0 then closeBlocks column s.outer s else s

/-- Opens a block at a column that is indented further than the current one; the second part tells
whether it did. -/
def openBlock (s : Scanner) (column : Nat) : Scanner × Bool :=
  if s.indent < column then ({ s with indent := column, outer := s.indent :: s.outer }, true)
  else (s, false)

/-- Opens a block for an entry that starts here, outside flow brackets. -/
def openFor (s : Scanner) (start : Token) : Except Fault Scanner :=
  if s.flow != 0 then .ok s
  else if !s.keyAllowed then .error .malformed
  else
    match s.openBlock s.ahead.column with
    | (s, true) => .ok (s.emit start)
    | (s, false) => .ok s

/-- Reads blanks, comments and line breaks.  Outside flow brackets a key may start on a new line. -/
def skipSpace : Nat → Scanner → Scanner
  | 0, s => s
  | fuel + 1, s =>
    let a := s.ahead.skipBlanks.skipComment
    if isBreak a.next then
      skipSpace fuel
        { s with ahead := a.lineBreak.2, keyAllowed := s.keyAllowed || s.flow == 0 }
    else { s with ahead := a }

def leaveAll (s : Scanner) : Except Fault Scanner := do
  return (← (s.unwind (-1)).dropKey).allowKey false

def number (a : Ahead) : Except Fault (Nat × Ahead) :=
  let digits := a.run Char.isDigit
  if digits.isEmpty then .error .malformed
  else if Text.digitLimit < digits.length then .error .badValue
  else .ok (digits.foldl (fun n c => n * 10 + (c.toNat - 48)) 0, a.forward digits.length)

/-- The handle of a tag: `!`, `!!`, or a name between exclamation marks. -/
def tagHandle (a : Ahead) : Except Fault (String × Ahead) :=
  if a.next != '!' then .error .malformed
  else if a.peek 1 == ' ' then .ok ("!", a.step)
  else
    let name := a.step.run isNameChar
    if a.peek (name.length + 1) == '!' then
      .ok ("!" ++ String.ofList name ++ "!", a.forward (name.length + 2))
    else .error .malformed

def isTagChar (c : Char) : Bool :=
  c.isAlphanum || "-;/?:@&=+$,_.!~*'()[]%".toList.contains c

def percentBytes : Nat → Ahead → Except Fault (List UInt8 × Ahead)
  | 0, a => .ok ([], a)
  | fuel + 1, a =>
    if a.next != '%' then .ok ([], a)
    else
      let digits := a.step.rest.take 2
      if digits.length == 2 && digits.all isHexDigit then do
        let (more, a) ← percentBytes fuel (a.forward 3)
        return (UInt8.ofNat (hexNumber digits) :: more, a)
      else .error .malformed

def tagText : Nat → Ahead → Except Fault (List Char × Ahead)
  | 0, a => .ok ([], a)
  | fuel + 1, a =>
    if !isTagChar a.next then .ok ([], a)
    else if a.next == '%' then do
      let (bytes, a) ← percentBytes (fuel + 1) a
      match Utf8.decode bytes with
      | .error _ => throw .malformed
      | .ok text =>
        let (more, a) ← tagText fuel a
        return (text.toList ++ more, a)
    else do
      let c := a.next
      let (more, a) ← tagText fuel a.step
      return (c :: more, a)

/-- The text of a tag, which must not be empty. -/
def tagSuffix (fuel : Nat) (a : Ahead) : Except Fault (String × Ahead) := do
  let (text, rest) ← tagText fuel a
  if rest.index == a.index then throw .malformed
  return (String.ofList text, rest)

def anchorName (a : Ahead) : Except Fault (String × Ahead) :=
  let name := a.run isNameChar
  let a := a.forward name.length
  if name.isEmpty then .error .malformed
  else if isGap a.next || "?:,]\x7d%@\x60".toList.contains a.next then
    .ok (String.ofList name, a)
  else .error .malformed

def tag (fuel : Nat) (a : Ahead) : Except Fault (Token × Ahead) := do
  let (token, a) ←
    if a.peek 1 == '<' then do
      let (suffix, a) ← tagSuffix fuel (a.forward 2)
      if a.next == '>' then pure (Token.tag none suffix, a.step) else throw .malformed
    else if isGap (a.peek 1) then pure (Token.tag none "!", a.step)
    else if (a.step.run fun c => !isPlainGap c).contains '!' then do
      let (handle, a) ← tagHandle a
      let (suffix, a) ← tagSuffix fuel a
      pure (Token.tag (some handle) suffix, a)
    else do
      let (suffix, a) ← tagSuffix fuel a.step
      pure (Token.tag (some "!") suffix, a)
  if isPlainGap a.next then return (token, a) else throw .malformed

def directive (fuel : Nat) (a : Ahead) : Except Fault (Token × Ahead) := do
  let name := a.step.run isNameChar
  let a := a.step.forward name.length
  if name.isEmpty || !isPlainGap a.next then throw .malformed
  let (token, a) ←
    if name == "YAML".toList then do
      let (major, a) ← number a.skipBlanks
      if a.next != '.' then throw .malformed
      let (_, a) ← number a.step
      if !isPlainGap a.next then throw .malformed
      pure (Token.version major, a)
    else if name == "TAG".toList then do
      let (handle, a) ← tagHandle a.skipBlanks
      if a.next != ' ' then throw .malformed
      let (text, a) ← tagSuffix fuel a.skipBlanks
      if !isPlainGap a.next then throw .malformed
      pure (Token.tagHandle handle text, a)
    else pure (Token.directive, a.skip fun c => !isBreak c)
  let a := a.skipBlanks.skipComment
  if isLineEnd a.next then return (token, a.lineBreak.2) else throw .malformed

/-- Adds the tokens of a key that started earlier, and the colon after it. -/
def valueOfKey (s : Scanner) (k : KeyStart) : Scanner :=
  let s := { s with keys := s.keys.filter fun entry => entry.1 != s.flow }
  let s := s.emitAt k.number .key
  let s :=
    if s.flow != 0 then s
    else
      match s.openBlock k.column with
      | (s, true) => s.emitAt k.number .blockMappingStart
      | (s, false) => s
  (s.allowKey false).take 1 .value

def value (s : Scanner) : Except Fault Scanner :=
  match s.keys.lookup s.flow with
  | some k => .ok (s.valueOfKey k)
  | none => do
    let s ← s.openFor .blockMappingStart
    return (← (s.allowKey (s.flow == 0)).dropKey).take 1 .value

def startsPlain (s : Scanner) : Bool :=
  let c := s.ahead.next
  !(isGap c || "-?:,[]\x7b\x7d#&*!|>'\"%@\x60".toList.contains c) ||
    (!isGap (s.ahead.peek 1) && (c == '-' || (s.flow == 0 && (c == '?' || c == ':'))))

/-- Adds a token that may start a key, with what a scan of the text ahead gives. -/
def content (s : Scanner) (scan : Ahead → Except Fault (Token × Ahead)) : Except Fault Scanner := do
  let s := (← s.saveKey).allowKey false
  let (token, ahead) ← scan s.ahead
  return { s.emit token with ahead }

def quotedToken (double : Bool) (fuel : Nat) (a : Ahead) : Except Fault (Token × Ahead) := do
  let (text, a) ← a.step.quoted double fuel
  return (.scalar (String.ofList text) false, a)

def blockScalar (s : Scanner) (folded : Bool) (fuel : Nat) : Except Fault Scanner := do
  let s ← (s.allowKey true).dropKey
  let (text, ahead) ← s.ahead.step.block folded s.indent fuel
  return { s.emit (.scalar (String.ofList text) false) with ahead }

/-- Adds a plain scalar.  A key may start after it if it passed a line break. -/
def plainScalar (s : Scanner) (fuel : Nat) : Except Fault Scanner := do
  let s := (← s.saveKey).allowKey false
  let (text, broken, ahead) := s.ahead.plain (s.flow != 0) (s.indent + 1) [] false fuel
  return { s.emit (.scalar (String.ofList text) true) with ahead, keyAllowed := broken }

def openFlow (s : Scanner) (t : Token) : Except Fault Scanner := do
  let s ← s.saveKey
  return { s with flow := s.flow + 1, keyAllowed := true }.take 1 t

def closeFlow (s : Scanner) (t : Token) : Except Fault Scanner := do
  if s.flow == 0 then throw .malformed
  let s ← s.dropKey
  return { s with flow := s.flow - 1, keyAllowed := false }.take 1 t

/-- Adds the tokens that start at the next character that is no space.  The end of the text is for
the caller; the number bounds the steps that one token takes. -/
def fetch (fuel : Nat) (s : Scanner) : Except Fault Scanner := do
  let a := s.ahead
  let c := a.next
  let gap := isGap (a.peek 1)
  let inFlow := s.flow != 0
  if c == '%' && a.column == 0 then
    let s ← s.leaveAll
    let (token, ahead) ← directive fuel a
    return { s.emit token with ahead }
  else if a.column == 0 && a.atMarker then
    return (← s.leaveAll).take 3 (if c == '-' then .documentStart else .documentEnd)
  else if c == '[' then s.openFlow .flowSequenceStart
  else if c == '\x7b' then s.openFlow .flowMappingStart
  else if c == ']' then s.closeFlow .flowSequenceEnd
  else if c == '\x7d' then s.closeFlow .flowMappingEnd
  else if c == ',' then return (← (s.allowKey true).dropKey).take 1 .flowEntry
  else if c == '-' && gap then
    let s ← s.openFor .blockSequenceStart
    return (← (s.allowKey true).dropKey).take 1 .blockEntry
  else if c == '?' && (inFlow || gap) then
    let s ← s.openFor .blockMappingStart
    return (← (s.allowKey (!inFlow)).dropKey).take 1 .key
  else if c == ':' && (inFlow || gap) then s.value
  else if c == '*' then
    s.content fun a => (anchorName a.step).map fun (name, a) => (.alias name, a)
  else if c == '&' then
    s.content fun a => (anchorName a.step).map fun (name, a) => (.anchor name, a)
  else if c == '!' then s.content (tag fuel)
  else if c == '|' && !inFlow then s.blockScalar false fuel
  else if c == '>' && !inFlow then s.blockScalar true fuel
  else if c == '\'' then s.content (quotedToken false fuel)
  else if c == '"' then s.content (quotedToken true fuel)
  else if s.startsPlain then s.plainScalar fuel
  else throw .malformed

/-- Scans as far as the next character that starts tokens, and these; at the end of the text, the
token of the end.  The second part tells whether that was all. -/
def advance (stop : Option Fault) (fuel : Nat) (s : Scanner) : Except Fault (Scanner × Bool) := do
  let a := s.ahead
  let start := if a.index == 0 && a.next.toNat == 0xFEFF then { s with ahead := a.step } else s
  let s := skipSpace fuel start
  if s.ahead.rest.isEmpty then
    if let some fault := stop then throw fault
  let s ← s.dropStale
  let s := s.unwind s.ahead.column
  if s.ahead.rest.isEmpty then return ((← (s.unwind (-1)).dropKey).emit .streamEnd, true)
  return (← s.fetch fuel, false)

/-- The tokens that come before every place where a key may have started. -/
def settled (s : Scanner) : List Token :=
  let pending := (s.keys.filter fun entry => !s.isStale entry.2).map fun entry => entry.2.number
  match pending.min? with
  | none => s.tokens.reverse
  | some number => (s.tokens.drop (s.count - number)).reverse

end Scanner

/-- The tokens of a text, and the fault that stands behind them. -/
structure Tokens where
  list : List Token
  fault : Option Fault := none

/-- Scans the text ahead to its end or to the first fault.  Every step reads at least one character,
so the number of steps left stays above that of the characters ahead and bounds each step too. -/
def Scanner.scanAll (stop : Option Fault) : Nat → Scanner → Tokens
  | 0, s => ⟨s.tokens.reverse, none⟩
  | fuel + 1, s =>
    match s.advance stop (fuel + 1) with
    | .error .unfinished => ⟨s.settled, some (stop.getD .unfinished)⟩
    | .error fault => ⟨s.settled, some fault⟩
    | .ok (s, true) => ⟨s.tokens.reverse, none⟩
    | .ok (s, false) => scanAll stop fuel s

def Source.tokens (s : Source) : Tokens :=
  Scanner.scanAll s.stop (s.text.length + 1) { ahead := .ofText s.text }

end RubyLint.Yaml
