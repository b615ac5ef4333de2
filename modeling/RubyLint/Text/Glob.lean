/-!
# Globs

Shell patterns over a whole text.  A star stands for any number of characters, separators included,
a question mark for one, and a bracket for one out of a set.  A bracket that is not closed is an
ordinary character; a range that runs backwards is empty.
-/

namespace RubyLint.Glob

inductive Part where
  | literal (c : Char)
  | one
  | many
  /-- One character inside, or outside if negated, the given closed ranges. -/
  | set (negated : Bool) (ranges : List (Char × Char))
  /-- A set without members. -/
  | nothing
deriving DecidableEq, Repr

def Part.accepts (p : Part) (c : Char) : Bool :=
  match p with
  | .literal d => c == d
  | .one => true
  | .many => false
  | .set negated ranges => negated != ranges.any fun r => r.1 ≤ c && c ≤ r.2
  | .nothing => false

/-- For every tail of a text, from the whole text to the empty one, whether parts match all of it.
One pass over the text per part is enough: a star matches a tail if the parts after it match that
tail or a shorter one, and any other part takes the first character. -/
def matchTails : List Part → List Char → List Bool
  | [], s => s.map (fun _ => false) ++ [true]
  | .many :: rest, s =>
    (matchTails rest s).foldr (fun here shorter => (here || shorter.headD false) :: shorter) []
  | p :: rest, s =>
    s.zipWith (fun c next => p.accepts c && next) (matchTails rest s).tail ++ [false]

/-- The text of a bracket and what follows it, if it is closed.  A closing bracket right at the
start, or after the mark of negation, belongs to the text. -/
def bracket? (s : List Char) : Option (List Char × List Char) :=
  let (mark, s) := if s.head? == some '!' then (['!'], s.drop 1) else ([], s)
  let (first, s) := if s.head? == some ']' then ([']'], s.drop 1) else ([], s)
  let body := s.takeWhile (· != ']')
  if body.length == s.length then none
  else some (mark ++ first ++ body, s.drop (body.length + 1))

/-- Splits the text of a bracket at the hyphens that make ranges: the first `skip` characters of a
chunk, and two after each such hyphen, are passed over. -/
def chunksFrom (skip : Nat) (chunk : List Char) : List Char → List (List Char)
  | [] => [chunk.reverse]
  | c :: rest =>
    match skip with
    | skip + 1 => chunksFrom skip (c :: chunk) rest
    | 0 =>
      if c == '-' then chunk.reverse :: chunksFrom 2 [] rest else chunksFrom 0 (c :: chunk) rest

/-- The chunks of a bracket's text.  A hyphen at the end makes no range. -/
def chunks (skip : Nat) (body : List Char) : List (List Char) :=
  let all := chunksFrom skip [] body
  match all.getLast? with
  | some [] =>
    match all.dropLast.getLast? with
    | some last => all.dropLast.dropLast ++ [last ++ ['-']]
    | none => all
  | _ => all

/-- Joins chunks whose range would run backwards, from the last pair on. -/
def dropEmptyRanges : List (List Char) → List (List Char)
  | [] => []
  | a :: rest =>
    match dropEmptyRanges rest with
    | [] => [a]
    | b :: more =>
      match a.getLast?, b.head? with
      | some high, some low =>
        if low < high then (a.dropLast ++ b.drop 1) :: more else a :: b :: more
      | _, _ => a :: b :: more

/-- The ranges that chunks describe: the last character of one and the first of the next are the
ends of a range, and all others stand for themselves.  `first` is an end that is still open. -/
def rangesOf (first : Option Char) : List (List Char) → List (Char × Char)
  | [] => []
  | chunk :: rest =>
    let (ranges, singles) := match first, chunk with
      | some low, high :: more => ([(low, high)], more)
      | _, all => ([], all)
    let plain (s : List Char) := s.map fun c => (c, c)
    match rest with
    | [] => ranges ++ plain singles
    | _ :: _ =>
      match singles.getLast? with
      | some low => ranges ++ plain singles.dropLast ++ rangesOf (some low) rest
      | none => ranges ++ rangesOf none rest

/-- The part that the text of a bracket stands for. -/
def setOf (body : List Char) : Part :=
  let negated := body.head? == some '!'
  let parts :=
    if body.contains '-' then dropEmptyRanges (chunks (if negated then 2 else 1) body) else [body]
  let stuff := parts.flatten
  if stuff.isEmpty then .nothing
  else if stuff == ['!'] && parts.length == 1 then .one
  else if stuff.head? == some '!' then
    .set true (rangesOf none (match parts with | [] => [] | p :: rest => p.drop 1 :: rest))
  else .set false (rangesOf none parts)

def parse : Nat → List Char → List Part
  | 0, _ => []
  | _ + 1, [] => []
  | fuel + 1, c :: rest =>
    if c == '*' then .many :: parse fuel rest
    else if c == '?' then .one :: parse fuel rest
    else if c == '[' then
      match bracket? rest with
      | none => .literal c :: parse fuel rest
      | some (body, rest) => setOf body :: parse fuel rest
    else .literal c :: parse fuel rest

def parts (pattern : String) : List Part :=
  parse pattern.length pattern.toList

def matchesText (pattern text : String) : Bool :=
  (matchTails (parts pattern) text.toList).headD false

end RubyLint.Glob
