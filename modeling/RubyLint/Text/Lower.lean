import RubyLint.Text.CaseTable
import RubyLint.Text.Class

/-!
# Lower case

Full lower case mapping of a text.  Two characters do not map one to one: the dotted capital I
becomes an `i` with a combining dot, and a capital sigma takes its final form when it ends a word,
that is, when a cased character precedes it and none follows, looking through the characters that
carry no case of their own.
-/

namespace RubyLint.Text

def lowerChar (c : Char) : Char :=
  if c.toNat < 128 then c.toLower
  else
    match lowerRuns.find? fun run =>
        run.first ≤ c.toNat && c.toNat ≤ run.last && (c.toNat - run.first) % run.step == 0 with
    | some run => Char.ofNat (c.toNat + run.shift).toNat
    | none => c

/-- Whether the first character that carries case, if any, is cased. -/
def casedAhead (s : List Char) : Bool :=
  match s.dropWhile fun c => inRanges caseIgnorableRanges c.toNat with
  | [] => false
  | c :: _ => inRanges casedRanges c.toNat

/-- Lower case of a text; `before` holds the characters already passed, the nearest first. -/
def lowerFrom (before : List Char) : List Char → List Char
  | [] => []
  | c :: rest =>
    let image :=
      if c.toNat == 0x130 then ['i', Char.ofNat 0x307]
      else if c.toNat == 0x3A3 then
        [if casedAhead before && !casedAhead rest then Char.ofNat 0x3C2 else Char.ofNat 0x3C3]
      else [lowerChar c]
    image ++ lowerFrom (c :: before) rest

def lower (s : List Char) : List Char :=
  lowerFrom [] s

end RubyLint.Text
