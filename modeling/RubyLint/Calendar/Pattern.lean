import RubyLint.Calendar

/-!
# Date patterns

A pattern shows a moment: a percent sign and a letter stand for a part of it, everything else for
itself.  Flags between the two choose the padding of numbers and the case of words, a number is the
least width, and a modifier that asks for a local form is passed over where there is none.  What is
no known field stays as it is written.
-/

namespace RubyLint.Calendar

def dayNames : List String :=
  ["Monday", "Tuesday", "Wednesday", "Thursday", "Friday", "Saturday", "Sunday"]

def monthNames : List String := [
  "January", "February", "March", "April", "May", "June", "July", "August", "September",
  "October", "November", "December"]

/-- The year and the number of the week of a date; weeks start on Mondays, and the first one of a
year holds its first Thursday. -/
def weekOf (d : Date) : Nat × Nat :=
  let thursday := d.ordinal + 3 - d.weekday
  let year := if thursday < daysBefore d.year then d.year - 1
    else if daysBefore (d.year + 1) ≤ thursday then d.year + 1 else d.year
  (year, (thursday - daysBefore year) / 7 + 1)

/-- What a field shows. -/
inductive Part where
  | nothing
  | text (s : String)
  /-- Half of a day, whose case the flags turn down. -/
  | half (s : String)
  | number (digits : Nat) (n : Int)
  /-- A number with blanks in front. -/
  | blank (digits : Nat) (n : Int)
  /-- A pattern of its own. -/
  | pattern (s : String)

/-- How a field is shown: padding, least width, upper and lower case, changed case, modifier. -/
structure Flags where
  pad : Option Char := none
  width : Nat := 0
  upper : Bool := false
  change : Bool := false
  modifier : Option Char := none

def twelfth (hour : Nat) : Nat :=
  if hour % 12 == 0 then 12 else hour % 12

def part? (m : Moment) (modifier : Option Char) (c : Char) : Option Part :=
  let d := m.date
  let noLocal := modifier != some 'E'
  let noDigits := modifier != some 'O'
  let plain := modifier.isNone
  let given (allowed : Bool) (p : Part) := if allowed then some p else none
  let sunday := (d.weekday + 1) % 7
  let short (s : String) := String.ofList (s.toList.take 3)
  let dayName := dayNames.getD d.weekday ""
  let monthName := monthNames.getD (d.month - 1) ""
  match c with
  | '%' => some (.text "%")
  | 'n' => some (.text "\n")
  | 't' => some (.text "\t")
  | 'a' => given plain (.text (short dayName))
  | 'A' => given plain (.text dayName)
  | 'b' | 'h' => given noLocal (.text (short monthName))
  | 'B' => given noLocal (.text monthName)
  | 'c' => given noDigits (.pattern "%a %b %e %H:%M:%S %Y")
  | 'C' => some (.number 1 (d.year / 100 : Nat))
  | 'd' => given noLocal (.number 2 d.day)
  | 'D' => given plain (.pattern "%m/%d/%y")
  | 'e' => given noLocal (.blank 2 d.day)
  | 'F' => given plain (.pattern "%Y-%m-%d")
  | 'g' => given noLocal (.number 2 ((weekOf d).1 % 100 : Nat))
  | 'G' => given noLocal (.number 1 (weekOf d).1)
  | 'H' => given noLocal (.number 2 m.hour)
  | 'I' => given noLocal (.number 2 (twelfth m.hour))
  | 'j' => given noLocal (.number 3 (d.dayOfYear + 1 : Nat))
  | 'k' => given noLocal (.blank 2 m.hour)
  | 'l' => given noLocal (.blank 2 (twelfth m.hour))
  | 'm' => given noLocal (.number 2 d.month)
  | 'M' => given noLocal (.number 2 m.minute)
  | 'p' => some (.half (if m.hour < 12 then "AM" else "PM"))
  | 'P' => some (.half (if m.hour < 12 then "am" else "pm"))
  | 'r' => some (.pattern "%I:%M:%S %p")
  | 'R' => some (.pattern "%H:%M")
  | 's' => some (.text (toString (m.seconds - 62135596800)))
  | 'S' => given noLocal (.number 2 m.second)
  | 'T' => some (.pattern "%H:%M:%S")
  | 'u' => some (.number 1 (d.weekday + 1 : Nat))
  | 'U' => given noLocal (.number 2 ((d.dayOfYear + 7 - sunday) / 7 : Nat))
  | 'V' => given noLocal (.number 2 (weekOf d).2)
  | 'w' => given noLocal (.number 1 sunday)
  | 'W' => given noLocal (.number 2 ((d.dayOfYear + 7 - d.weekday) / 7 : Nat))
  | 'x' => given noDigits (.pattern "%m/%d/%y")
  | 'X' => given noDigits (.pattern "%H:%M:%S")
  | 'y' => some (.number 2 (d.year % 100 : Nat))
  | 'Y' => given noDigits (.number 1 d.year)
  | 'z' => some .nothing
  | 'Z' => some (.text "")
  | _ => none

/-- Fills a text up to the width of a field; no text at all is not filled if there is no padding. -/
def Flags.fill (f : Flags) (s : List Char) : List Char :=
  if s.isEmpty && f.pad == some '-' then []
  else List.replicate (f.width - s.length) (if f.pad == some '0' then '0' else ' ') ++ s

/-- A number with at least as many digits as it needs to have. -/
def Flags.number (f : Flags) (digits : Nat) (n : Int) : List Char :=
  let body := (toString n).toList
  let missing := max digits f.width - body.length
  if f.pad == some '-' then f.fill body
  else if f.pad == some '_' then List.replicate missing ' ' ++ body
  else if n < 0 then '-' :: (List.replicate missing '0' ++ body.drop 1)
  else List.replicate missing '0' ++ body

def readFlags (f : Flags) : List Char → Flags × List Char
  | [] => (f, [])
  | c :: rest =>
    if c == '_' || c == '-' || c == '0' then readFlags { f with pad := some c } rest
    else if c == '^' then readFlags { f with upper := true } rest
    else if c == '#' then readFlags { f with change := true } rest
    else (f, c :: rest)

/-- Reads what stands between the percent sign and the letter of a field. -/
def readField (s : List Char) : Flags × List Char :=
  let (f, s) := readFlags {} s
  let digits := s.takeWhile Char.isDigit
  let f := { f with width := digits.foldl (fun n c => n * 10 + (c.toNat - 48)) 0 }
  match s.drop digits.length with
  | 'E' :: rest => ({ f with modifier := some 'E' }, rest)
  | 'O' :: rest => ({ f with modifier := some 'O' }, rest)
  | rest => (f, rest)

/-- Shows a moment by a pattern.  Patterns inside fields are one level deep and hold no such field
but the known ones. -/
def render (m : Moment) : Nat → Nat → List Char → List Char
  | 0, _, s => s
  | _ + 1, _, [] => []
  | fuel + 1, depth, c :: rest =>
    if c != '%' then c :: render m fuel depth rest
    else
      let (f, after) := readField rest
      let written := '%' :: rest.take (rest.length - after.length)
      match after with
      | [] => f.fill written
      | letter :: next =>
        let upper (on : Bool) (s : String) := if on then s.toList.map Char.toUpper else s.toList
        let shown := match part? m f.modifier letter with
          | none =>
            let named := letter == 'b' || letter == 'h'
            f.fill (upper (f.upper || (f.change && named)) (String.ofList (written ++ [letter])))
          | some .nothing => []
          | some (.text s) => f.fill (upper (f.upper || f.change) s)
          | some (.half s) =>
            f.fill (if f.change then s.toList.map Char.toLower else
              upper (f.upper && letter == 'p') s)
          | some (.number digits n) => f.number digits n
          | some (.blank digits n) =>
            { f with pad := some (f.pad.getD '_') }.number digits n
          | some (.pattern s) =>
            match depth with
            | 0 => s.toList
            | depth + 1 =>
              let inner := render m fuel depth s.toList
              f.fill (if f.upper then inner.map Char.toUpper else inner)
        shown ++ render m fuel depth next

/-- The pattern with the fields that only a moment itself knows filled in: the fraction of the
second and the zone. -/
def fillOwn (m : Moment) : List Char → List Char
  | '%' :: 'f' :: rest => (padded 6 m.micros).toList ++ fillOwn m rest
  | '%' :: 'z' :: rest => ((m.zone.map (zoneText "")).getD "").toList ++ fillOwn m rest
  | '%' :: 'Z' :: rest => ((m.zone.map zoneName).getD "").toList ++ fillOwn m rest
  | '%' :: c :: rest => '%' :: c :: fillOwn m rest
  | c :: rest => c :: fillOwn m rest
  | [] => []

def byPattern (pattern : List Char) (m : Moment) : List Char :=
  let pattern := fillOwn m pattern
  render m (pattern.length + 32) 2 pattern

end RubyLint.Calendar
