import RubyLint.Yaml.Token

/-!
# YAML scalars

The text of the four kinds of scalars.  A plain scalar ends where an indicator could start; a quoted
one is folded line by line; a block scalar keeps or folds the lines that are indented far enough.
Each reads to its end within a bound on its steps; any number above that of the characters ahead
will do.
-/

namespace RubyLint.Yaml

namespace Ahead

/-- The characters that a single letter stands for after a backslash. -/
def letterEscapes : List (Char × Nat) := [
  ('0', 0), ('a', 7), ('b', 8), ('t', 9), ('\t', 9), ('n', 10), ('v', 11), ('f', 12), ('r', 13),
  ('e', 27), (' ', 32), ('"', 34), ('\\', 92), ('/', 47), ('N', 0x85), ('_', 0xA0), ('L', 0x2028),
  ('P', 0x2029)]

/-- The number of hexadecimal digits after a letter that introduces a character code. -/
def codeLength? (c : Char) : Option Nat :=
  if c == 'x' then some 2 else if c == 'u' then some 4 else if c == 'U' then some 8 else none

/-- The line breaks between two lines of a quoted scalar, blanks around them dropped.  The first
argument bounds the number of lines. -/
def quotedBreaks : Nat → Ahead → Except Fault (List Char × Ahead)
  | 0, a => .ok ([], a)
  | fuel + 1, a =>
    if a.atMarker then .error .malformed
    else
      let a := a.skip fun c => c == ' ' || c == '\t'
      if isBreak a.next then do
        let (br, a) := a.lineBreak
        let (more, a) ← quotedBreaks fuel a
        return (br ++ more, a)
      else .ok ([], a)

/-- A line break inside a scalar, given the breaks that follow it: a single line feed is a blank. -/
def foldBreak (br breaks : List Char) : List Char :=
  if br != ['\n'] then br ++ breaks else if breaks.isEmpty then [' '] else breaks

/-- An escape sequence, after its backslash. -/
def escape (fuel : Nat) (a : Ahead) : Except Fault (List Char × Ahead) :=
  match letterEscapes.lookup a.next with
  | some code => .ok ([Char.ofNat code], a.step)
  | none =>
    match codeLength? a.next with
    | some length =>
      let digits := a.step.rest.take length
      if digits.length == length && digits.all isHexDigit then
        let code := hexNumber digits
        if 0x80000000 ≤ code then .error .tooLarge
        else if 0x110000 ≤ code then .error .badValue
        else .ok ([Text.ofCode code], a.step.forward length)
      else .error .malformed
    | none =>
      if isBreak a.next then quotedBreaks fuel a.lineBreak.2 else .error .malformed

/-- The part of a quoted scalar up to its end or the next blank. -/
def quotedWord (double : Bool) : Nat → Ahead → Except Fault (List Char × Ahead)
  | 0, a => .ok ([], a)
  | fuel + 1, a =>
    let go (part : List Char) (a : Ahead) : Except Fault (List Char × Ahead) := do
      let (more, a) ← quotedWord double fuel a
      return (part ++ more, a)
    let c := a.next
    if isGap c then .ok ([], a)
    else if double then
      if c == '"' then .ok ([], a)
      else if c == '\\' then do
        let (part, a) ← escape fuel a.step
        go part a
      else go [c] a.step
    else if c == '\'' then
      if a.peek 1 == '\'' then go ['\''] (a.forward 2) else .ok ([], a)
    else go [c] a.step

def quoted (double : Bool) : Nat → Ahead → Except Fault (List Char × Ahead)
  | 0, _ => .error .malformed
  | fuel + 1, a => do
    let (word, a) ← quotedWord double (fuel + 1) a
    if a.next == (if double then '"' else '\'') then return (word, a.step)
    let blanks := a.run fun c => c == ' ' || c == '\t'
    let a := a.forward blanks.length
    if a.next == endMark then throw .unfinished
    let (space, a) ←
      if isBreak a.next then do
        let (br, a) := a.lineBreak
        let (breaks, a) ← quotedBreaks (fuel + 1) a
        pure (foldBreak br breaks, a)
      else pure (blanks, a)
    let (more, a) ← quoted double fuel a
    return (word ++ space ++ more, a)

/-- The length of the part of a plain scalar up to the next blank or indicator. -/
def plainLength (flow : Bool) : List Char → Nat
  | [] => 0
  | c :: rest =>
    let after := rest.head?.getD endMark
    if isGap c then 0
    else if c == ':' &&
        (isGap after || (flow && [',', '[', ']', '\x7b', '\x7d'].contains after)) then 0
    else if flow && [',', '?', '[', ']', '\x7b', '\x7d'].contains c then 0
    else plainLength flow rest + 1

/-- The line breaks after the first one between two parts of a plain scalar.  Nothing follows if a
document marker starts a line. -/
def plainBreaks : Nat → Ahead → Option (List Char) × Ahead
  | 0, a => (some [], a)
  | fuel + 1, a =>
    if a.next == ' ' then plainBreaks fuel a.step
    else if isBreak a.next then
      let (br, a) := a.lineBreak
      if a.atMarker then (none, a)
      else
        let (more, a) := plainBreaks fuel a
        (more.map (br ++ ·), a)
    else (some [], a)

/-- The space between two parts of a plain scalar, and whether it holds a line break. -/
def plainSpace (fuel : Nat) (a : Ahead) : List Char × Bool × Ahead :=
  let blanks := a.run (· == ' ')
  let a := a.forward blanks.length
  if isBreak a.next then
    let (br, a) := a.lineBreak
    if a.atMarker then ([], true, a)
    else
      match plainBreaks fuel a with
      | (none, a) => ([], true, a)
      | (some breaks, a) => (foldBreak br breaks, true, a)
  else (blanks, false, a)

/-- A plain scalar whose lines are indented by at least `indent`, and whether it passed a line
break after its last part. -/
def plain (flow : Bool) (indent : Int) (space : List Char) (broken : Bool) :
    Nat → Ahead → List Char × Bool × Ahead
  | 0, a => ([], broken, a)
  | fuel + 1, a =>
    let length := if a.next == '#' then 0 else plainLength flow a.rest
    if length == 0 then ([], broken, a)
    else
      let part := space ++ a.rest.take length
      let (space, broken, a) := plainSpace (fuel + 1) (a.forward length)
      if space.isEmpty || a.next == '#' || (!flow && a.column < indent) then (part, broken, a)
      else
        let (more, broken, a) := plain flow indent space broken fuel a
        (part ++ more, broken, a)

/-- What becomes of the line breaks at the end of a block scalar. -/
inductive Chomping where
  | strip
  | clip
  | keep
deriving DecidableEq, Repr

def chomping? (c : Char) : Option Chomping :=
  if c == '+' then some .keep else if c == '-' then some .strip else none

/-- The header of a block scalar: its chomping and, if given, its indentation. -/
def blockHeader (a : Ahead) : Except Fault ((Chomping × Option Nat) × Ahead) := do
  let digit? (c : Char) : Except Fault (Option Nat) :=
    if c == '0' then .error .malformed
    else .ok (if c.isDigit then some (c.toNat - 48) else none)
  let (header, a) ←
    match chomping? a.next with
    | some chomp => do
      let increment ← digit? a.step.next
      pure ((chomp, increment), if increment.isSome then a.forward 2 else a.step)
    | none => do
      let increment ← digit? a.next
      let a := if increment.isSome then a.step else a
      match increment, chomping? a.next with
      | some n, some chomp => pure ((chomp, some n), a.step)
      | _, _ => pure ((Chomping.clip, increment), a)
  if !isPlainGap a.next then throw .malformed
  let a := a.skipBlanks.skipComment
  if isLineEnd a.next then return (header, a.lineBreak.2) else throw .malformed

/-- The empty lines at the start of a block scalar and the widest indentation among them and the
first other line. -/
def blockStart (widest : Nat) : Nat → Ahead → List Char × Nat × Ahead
  | 0, a => ([], widest, a)
  | fuel + 1, a =>
    if a.next == ' ' then blockStart (max widest a.step.column) fuel a.step
    else if isBreak a.next then
      let (br, a) := a.lineBreak
      let (more, widest, a) := blockStart widest fuel a
      (br ++ more, widest, a)
    else ([], widest, a)

def indentTo (indent : Nat) : Nat → Ahead → Ahead
  | 0, a => a
  | fuel + 1, a =>
    if a.column < indent && a.next == ' ' then indentTo indent fuel a.step else a

/-- The empty lines before the next line of a block scalar. -/
def blockBreaks (indent : Nat) : Nat → Ahead → List Char × Ahead
  | 0, a => ([], a)
  | fuel + 1, a =>
    let a := a.indentTo indent indent
    if isBreak a.next then
      let (br, a) := a.lineBreak
      let (more, a) := blockBreaks indent fuel a
      (br ++ more, a)
    else ([], a)

/-- The lines of a block scalar, given the breaks before the next one.  The result is the text, the
last line break and the breaks after it. -/
def blockLines (folded : Bool) (indent : Nat) (breaks : List Char) :
    Nat → Ahead → List Char × List Char × List Char × Ahead
  | 0, a => ([], [], breaks, a)
  | fuel + 1, a =>
    if a.column == indent && a.next != endMark then
      let flush := !(a.next == ' ' || a.next == '\t')
      let line := a.run fun c => !isBreak c
      let (br, a) := (a.forward line.length).lineBreak
      let (after, a) := blockBreaks indent (fuel + 1) a
      let start := breaks ++ line
      if a.column == indent && a.next != endMark then
        let between :=
          if folded && br == ['\n'] && flush && !(a.next == ' ' || a.next == '\t') then
            if after.isEmpty then [' '] else []
          else br
        let (more, last, after, a) := blockLines folded indent after fuel a
        (start ++ between ++ more, last, after, a)
      else (start, br, after, a)
    else ([], [], breaks, a)

/-- A block scalar, after its indicator, inside a block of the given indentation. -/
def block (folded : Bool) (parent : Int) (fuel : Nat) (a : Ahead) :
    Except Fault (List Char × Ahead) := do
  let ((chomp, increment), a) ← a.blockHeader
  let least := (max (parent + 1) 1).toNat
  let (breaks, indent, a) := match increment with
    | none =>
      let (breaks, widest, a) := blockStart 0 fuel a
      (breaks, max least widest, a)
    | some n =>
      let indent := least + n - 1
      let (breaks, a) := blockBreaks indent fuel a
      (breaks, indent, a)
  let (text, last, after, a) := blockLines folded indent breaks fuel a
  return (match chomp with
    | .strip => text
    | .clip => text ++ last
    | .keep => text ++ last ++ after, a)

end Ahead

end RubyLint.Yaml
