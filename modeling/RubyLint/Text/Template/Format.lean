import RubyLint.Number.Reading
import RubyLint.Number.Significant
import RubyLint.Text.Template.Fault

/-!
# Formats of template fields

A format has fill and alignment, sign, alternate form, zero padding, width, grouping, precision and
type, each of which may be left out.  Texts and numbers are formatted by it; what a format may say
depends on the type of the value.
-/

namespace RubyLint.Template

structure Format where
  fill : Char
  align : Char
  sign : Option Char
  coerceZero : Bool
  alternate : Bool
  width : Nat
  grouping : Option Char
  precision : Option Nat
  type : Option Char

/-- The number that digits of any script write; none if there are none, or others among them. -/
def number? (digits : List Char) : Except Fault (Option Nat) := do
  if digits.isEmpty || !digits.all Text.isDigit then return none
  let n := digits.foldl (fun n c => n * 10 + (Text.digitValue? c).getD 0) 0
  if Value.sizeBound ≤ n then throw .tooManyDigits
  return some n

def readNumber (s : List Char) : Except Fault (Option Nat × List Char) := do
  let digits := s.takeWhile Text.isDigit
  return (← number? digits, s.drop digits.length)

def isAlign (c : Char) : Bool :=
  c == '<' || c == '>' || c == '=' || c == '^'

def readFlag (c : Char) (s : List Char) : Bool × List Char :=
  if s.head? == some c then (true, s.drop 1) else (false, s)

/-- Reads a format for a value of the named type, which is aligned by `align` on its own. -/
def readFormat (typeName : String) (align : Char) (format : List Char) : Except Fault Format := do
  let (fill, chosen, s) : Option Char × Option Char × List Char := match format with
    | f :: a :: rest =>
      if isAlign a then (some f, some a, rest)
      else if isAlign f then (none, some f, a :: rest) else (none, none, format)
    | [a] => if isAlign a then (none, some a, []) else (none, none, format)
    | [] => (none, none, [])
  let (sign, s) : Option Char × List Char := match s with
    | c :: rest => if c == '+' || c == '-' || c == ' ' then (some c, rest) else (none, s)
    | [] => (none, s)
  let (coerceZero, s) := readFlag 'z' s
  let (alternate, s) := readFlag '#' s
  let (zeroFill, s) := if fill.isNone then readFlag '0' s else (false, s)
  let (width, s) ← readNumber s
  let (comma, s) := readFlag ',' s
  let (under, s) := readFlag '_' s
  if comma && under then throw .twoGroupings
  let (commaAfter, s) := if under then readFlag ',' s else (false, s)
  if commaAfter then throw .twoGroupings
  let grouping := if comma then some ',' else if under then some '_' else none
  let (dot, s) := readFlag '.' s
  let (precision, s) ← if dot then readNumber s else pure (none, s)
  if dot && precision.isNone then throw .noPrecision
  if 1 < s.length then throw (.badFormat (String.ofList format) typeName)
  let type := s.head?
  match grouping with
  | none => pure ()
  | some g =>
    let shown := type.getD (if typeName == "str" then 's' else 'd')
    let decimal := ['d', 'e', 'f', 'g', 'E', 'G', '%', 'F'].contains shown
    let based := ['b', 'o', 'x', 'X'].contains shown
    if !(decimal || (based && g == '_')) then throw (.groupingWith g shown)
  return {
    fill := fill.getD (if zeroFill then '0' else ' ')
    align := chosen.getD (if zeroFill && align == '>' then '=' else align)
    sign, coerceZero, alternate, width := width.getD 0, grouping, precision, type }

variable [Machine]

/-- Refuses a width that does not fit into memory. -/
def Format.checkWidth (f : Format) : Except Fault Unit :=
  if Machine.memoryBound ≤ f.width then .error (.use .noMemory) else .ok ()

def pad (f : Format) (s : List Char) : List Char :=
  let missing := f.width - s.length
  let left := if f.align == '<' then 0 else if f.align == '^' then missing / 2 else missing
  List.replicate left f.fill ++ s ++ List.replicate (missing - left) f.fill

/-- Sets off groups of digits, counted from the right. -/
def group (separator : Char) (size : Nat) (digits : List Char) : List Char :=
  (digits.reverse.zipIdx.flatMap fun (c, i) =>
    if i != 0 && i % size == 0 then [separator, c] else [c]).reverse

/-- The least number of digits, at least one, that takes up some room in groups of a size with a
separator between them. -/
def digitsFor (room size : Nat) : Nat :=
  room / (size + 1) * size + max (room % (size + 1)) 1

/-- A number from its sign mark, its base mark, its whole digits and what follows them. -/
def padNumber (f : Format) (sign mark whole rest : List Char) : List Char :=
  let size := match f.type with
    | some c => if ['b', 'o', 'x', 'X'].contains c then 4 else 3
    | none => 3
  let grouped (digits : List Char) := match f.grouping with
    | none => digits
    | some g => group g size digits
  let room := f.width - sign.length - mark.length - rest.length
  if f.align == '=' then
    if f.fill == '0' && !whole.isEmpty then
      let count := if f.grouping.isSome then digitsFor room size else room
      sign ++ mark ++ grouped (Number.padZeros count whole) ++ rest
    else
      let body := grouped whole
      sign ++ mark ++ List.replicate (room - body.length) f.fill ++ body ++ rest
  else pad f (sign ++ mark ++ grouped whole ++ rest)

def signMark (f : Format) (negative : Bool) : List Char :=
  if negative then ['-']
  else match f.sign with
    | some '+' => ['+']
    | some ' ' => [' ']
    | _ => []

def formatWhole (f : Format) (n : Int) (base : Nat) (mark : String) (upper : Bool) :
    Except Fault (List Char) := do
  f.checkWidth
  let digits := Nat.toDigits base n.natAbs
  let digits := if upper then digits.map Char.toUpper else digits
  return padNumber f (signMark f (n < 0)) (if f.alternate then mark.toList else []) digits []

/-- The types of formats for floating point numbers. -/
def realTypes : List Char :=
  ['e', 'E', 'f', 'F', 'g', 'G', 'n', '%']

/-- The text of the size of a number by its format: without a type it is the shortest one, or has at
least one place. -/
def realBody (f : Format) (b : Number.Binary) : List Char :=
  let places := f.precision.getD 6
  match f.type, f.precision with
  | none, none =>
    let body := Number.shortBody b
    if f.alternate && !body.contains '.' then
      body.flatMap fun c => if c == 'e' then ['.', 'e'] else [c]
    else body
  | none, some count => Number.generalText f.alternate true count b
  | some c, _ =>
    if c == 'e' || c == 'E' then Number.exponentText f.alternate places b
    else if c == 'g' || c == 'G' || c == 'n' then Number.generalText f.alternate false places b
    else Number.fixedBody places b ++ if f.alternate && places == 0 then ['.'] else []

def formatReal (f : Format) (typeName : String) (x : Float) : Except Fault (List Char) := do
  match f.type.filter fun c => !realTypes.contains c with
  | some c => throw (.unknownType c typeName)
  | none =>
    if 0x80000000 ≤ f.precision.getD 0 then throw .tooPrecise
    f.checkWidth
    let percent := f.type == some '%'
    let upper := (f.type.map Char.isUpper).getD false
    let signed (negative : Bool) (body : List Char) : List Char :=
      let body := if upper then body.map Char.toUpper else body
      let whole := body.takeWhile Char.isDigit
      padNumber f (signMark f negative) [] whole
        (body.drop whole.length ++ if percent then ['%'] else [])
    match Number.read (if percent then x * 100 else x) with
    | .nan => return signed false ['n', 'a', 'n']
    | .infinite negative => return signed negative ['i', 'n', 'f']
    | .finite b =>
      let body := realBody f b
      let zero := (body.takeWhile fun c => c != 'e').all fun c => c == '0' || c == '.'
      return signed (b.negative && !(f.coerceZero && zero)) body

/-- The first number with too many digits to be written. -/
def longNumber : Nat :=
  Number.tenTo Text.digitLimit

/-- A whole number as a floating point number, if it is not too large. -/
def toReal (n : Int) : Except Fault Float :=
  let size := Number.scaled n.natAbs 0
  if size.isInf then .error .tooLarge else .ok (if n < 0 then -size else size)

def formatInt (typeName : String) (n : Int) (format : List Char) : Except Fault (List Char) := do
  let f ← readFormat typeName '>' format
  let real := match f.type with
    | some c => ['e', 'E', 'f', 'F', 'g', 'G', '%'].contains c
    | none => false
  if real then formatReal f typeName (← toReal n)
  else
    let known := match f.type with
      | some c => ['b', 'c', 'd', 'o', 'x', 'X', 'n'].contains c
      | none => true
    if !known then throw (.unknownType (f.type.getD ' ') typeName)
    if f.precision.isSome then
      throw (.notAllowed "Precision not allowed in integer format specifier")
    if f.coerceZero then
      throw (.notAllowed "Negative zero coercion (z) not allowed in integer format specifier")
    match f.type with
    | some 'c' =>
      if f.sign.isSome then
        throw (.notAllowed "Sign not allowed with integer format specifier 'c'")
      if f.alternate then
        throw (.notAllowed "Alternate form (#) not allowed with integer format specifier 'c'")
      if n < -Value.sizeBound || Value.sizeBound ≤ n then throw .hugeCharacter
      if n < 0 || 0x110000 ≤ n then throw .noCharacter
      f.checkWidth
      return pad f [Text.ofCode n.toNat]
    | some 'b' => formatWhole f n 2 "0b" false
    | some 'o' => formatWhole f n 8 "0o" false
    | some 'x' => formatWhole f n 16 "0x" false
    | some 'X' => formatWhole f n 16 "0X" true
    | _ =>
      if longNumber ≤ n.natAbs then throw .tooLong
      formatWhole f n 10 "" false

def formatText (s : List Char) (format : List Char) : Except Fault (List Char) := do
  let f ← readFormat "str" '<' format
  match f.type with
  | none => pure ()
  | some 's' => pure ()
  | some c => throw (.unknownType c "str")
  match f.sign with
  | none => pure ()
  | some c =>
    let what := if c == ' ' then "Space" else "Sign"
    throw (.notAllowed s!"{what} not allowed in string format specifier")
  if f.coerceZero then
    throw (.notAllowed "Negative zero coercion (z) not allowed in string format specifier")
  if f.alternate then
    throw (.notAllowed "Alternate form (#) not allowed in string format specifier")
  if f.align == '=' then
    throw (.notAllowed "'=' alignment not allowed in string format specifier")
  f.checkWidth
  return pad f (match f.precision with | none => s | some n => s.take n)

end RubyLint.Template
