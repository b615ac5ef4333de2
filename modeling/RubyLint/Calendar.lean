/-!
# Dates and times of day

A date of the Gregorian calendar, extended to all years, and a moment: a date with a time of day
and, if it is known, the distance of its zone from UTC.  Two moments with zones are the same if
they are the same instant.
-/

namespace RubyLint

structure Date where
  year : Nat
  month : Nat
  day : Nat
deriving DecidableEq, Repr

/-- A date with a time of day; `zone` is the number of minutes east of UTC. -/
structure Moment where
  date : Date
  hour : Nat
  minute : Nat
  second : Nat
  micros : Nat
  zone : Option Int
deriving DecidableEq, Repr

namespace Calendar

/-- Digits with zeros in front, as many as it takes to fill a width. -/
def padded (width n : Nat) : String :=
  let digits := (toString n).toList
  String.ofList (List.replicate (width - digits.length) '0' ++ digits)

def isLeap (year : Nat) : Bool :=
  year % 4 == 0 && (year % 100 != 0 || year % 400 == 0)

def daysIn (year month : Nat) : Nat :=
  if month == 2 then if isLeap year then 29 else 28
  else if [4, 6, 9, 11].contains month then 30
  else 31

/-- The number of days from the first day of year 1 to the first day of a year. -/
def daysBefore (year : Nat) : Nat :=
  let past := year - 1
  past * 365 + past / 4 - past / 100 + past / 400

/-- A zone as a signed number of hours and minutes with a mark between them. -/
def zoneText (mark : String) (zone : Int) : String :=
  let minutes := zone.natAbs
  (if zone < 0 then "-" else "+") ++ padded 2 (minutes / 60) ++ mark ++ padded 2 (minutes % 60)

def zoneName (zone : Int) : String :=
  if zone == 0 then "UTC" else "UTC" ++ zoneText ":" zone

def zoneShown (zone : Int) : String :=
  if zone == 0 then "datetime.timezone.utc"
  else
    let seconds := zone * 60
    let parts :=
      if seconds < 0 then s!"days=-1, seconds={seconds + 86400}" else s!"seconds={seconds}"
    s!"datetime.timezone(datetime.timedelta({parts}))"

end Calendar

namespace Date

def isValid (d : Date) : Bool :=
  d.year != 0 && d.month != 0 && d.month ≤ 12 && d.day != 0 &&
    d.day ≤ Calendar.daysIn d.year d.month

def dayOfYear (d : Date) : Nat :=
  (List.range (d.month - 1)).foldl (fun days m => days + Calendar.daysIn d.year (m + 1)) (d.day - 1)

/-- The number of days since the first day of year 1, a Monday. -/
def ordinal (d : Date) : Nat :=
  Calendar.daysBefore d.year + d.dayOfYear

/-- The day of the week, counted from Monday. -/
def weekday (d : Date) : Nat :=
  d.ordinal % 7

def text (d : Date) : String :=
  Calendar.padded 4 d.year ++ "-" ++ Calendar.padded 2 d.month ++ "-" ++ Calendar.padded 2 d.day

/-- A date as it is shown inside another value. -/
def shown (d : Date) : String :=
  s!"datetime.date({d.year}, {d.month}, {d.day})"

def midnight (d : Date) : Moment :=
  ⟨d, 0, 0, 0, 0, none⟩

def first : Date :=
  ⟨1, 1, 1⟩

def last : Date :=
  ⟨9999, 12, 31⟩

end Date

namespace Moment

/-- The number of seconds since the start of year 1 by the clock of the moment. -/
def seconds (m : Moment) : Int :=
  m.date.ordinal * 86400 + m.hour * 3600 + m.minute * 60 + m.second

/-- Whether two moments are the same.  One with a zone is never the same as one without. -/
def same (m n : Moment) : Bool :=
  match m.zone, n.zone with
  | none, none => m == n
  | some y, some z => m.seconds - y * 60 == n.seconds - z * 60 && m.micros == n.micros
  | _, _ => false

def text (m : Moment) : String :=
  let clock := Calendar.padded 2 m.hour ++ ":" ++ Calendar.padded 2 m.minute ++ ":" ++
    Calendar.padded 2 m.second
  let fraction := if m.micros == 0 then "" else "." ++ Calendar.padded 6 m.micros
  let zone := match m.zone with
    | none => ""
    | some zone => Calendar.zoneText ":" zone
  m.date.text ++ " " ++ clock ++ fraction ++ zone

/-- A moment as it is shown inside another value. -/
def shown (m : Moment) : String :=
  let fine :=
    if m.micros != 0 then [m.second, m.micros] else if m.second != 0 then [m.second] else []
  let numbers := [m.date.year, m.date.month, m.date.day, m.hour, m.minute] ++ fine
  let zone := match m.zone with
    | none => ""
    | some zone => ", tzinfo=" ++ Calendar.zoneShown zone
  "datetime.datetime(" ++ ", ".intercalate (numbers.map toString) ++ zone ++ ")"

end Moment

end RubyLint
