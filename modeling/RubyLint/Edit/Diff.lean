import RubyLint.Text.Lines

/-!
# Unified differences

The difference of two texts, line by line.  The longest block of lines that both texts share is
taken first, the earliest one among equals, and the parts before and after it are treated alike.  In
a text of 200 lines or more, lines that make up more than a hundredth of it start no block.  Changes
are shown with three lines around them; changes closer than that share a hunk.
-/

namespace RubyLint.Diff

/-- Equal lines: `size` of them from `before` in the old text and from `after` in the new one. -/
structure Block where
  before : Nat
  after : Nat
  size : Nat
deriving DecidableEq, Repr

/-- The lines of two texts, and for each old line the places where a block may pair it with a new
one. -/
structure Lines where
  old : Array String
  new : Array String
  places : Array (List Nat)

/-- The lines that start no block because they occur too often. -/
def popular (new : Array String) : List String :=
  if new.size < 200 then []
  else
    let limit := new.size / 100 + 1
    new.toList.eraseDups.filter fun line => limit < new.toList.count line

def Lines.ofTexts (old new : String) : Lines :=
  let old := (Text.lines old).toArray
  let new := (Text.lines new).toArray
  let common := popular new
  let placesOf (line : String) : List Nat :=
    if common.contains line then []
    else (new.toList.zipIdx.filter fun entry => entry.1 == line).map (·.2)
  ⟨old, new, old.map placesOf⟩

/-- A rectangle of lines: a stretch of old lines and a stretch of new ones. -/
structure Area where
  oldStart : Nat
  oldStop : Nat
  newStart : Nat
  newStop : Nat

/-- One old line in the search for the longest block.  `runs` holds the length of the block that
ends with the previous old line, for every new line where one ends. -/
def scanLine (lines : Lines) (area : Area) (state : Block × List (Nat × Nat)) (i : Nat) :
    Block × List (Nat × Nat) :=
  let (best, runs) := state
  let places := (lines.places.getD i []).filter fun j => area.newStart ≤ j && j < area.newStop
  places.foldl
    (fun (best, extended) j =>
      let size := (if j = 0 then 0 else (runs.lookup (j - 1)).getD 0) + 1
      (if best.size < size then ⟨i + 1 - size, j + 1 - size, size⟩ else best,
        (j, size) :: extended))
    (best, [])

/-- Moves the start of a block back over equal lines. -/
def growBack (lines : Lines) (area : Area) : Nat → Block → Block
  | 0, b => b
  | steps + 1, b =>
    if area.oldStart < b.before && area.newStart < b.after &&
        lines.old.getD (b.before - 1) "" == lines.new.getD (b.after - 1) "" then
      growBack lines area steps ⟨b.before - 1, b.after - 1, b.size + 1⟩
    else b

/-- Moves the end of a block on over equal lines. -/
def growOn (lines : Lines) (area : Area) : Nat → Block → Block
  | 0, b => b
  | steps + 1, b =>
    if b.before + b.size < area.oldStop && b.after + b.size < area.newStop &&
        lines.old.getD (b.before + b.size) "" == lines.new.getD (b.after + b.size) "" then
      growOn lines area steps { b with size := b.size + 1 }
    else b

def longest (lines : Lines) (area : Area) : Block :=
  let rows := (List.range (area.oldStop - area.oldStart)).map (area.oldStart + ·)
  let (best, _) := rows.foldl (scanLine lines area) (⟨area.oldStart, area.newStart, 0⟩, [])
  growOn lines area lines.old.size (growBack lines area lines.old.size best)

/-- The blocks of an area in order, found down to a depth. -/
def blocksIn (lines : Lines) : Nat → Area → List Block
  | 0, _ => []
  | depth + 1, area =>
    let b := longest lines area
    if b.size = 0 then []
    else
      let left :=
        if area.oldStart < b.before && area.newStart < b.after then
          blocksIn lines depth ⟨area.oldStart, b.before, area.newStart, b.after⟩
        else []
      let right :=
        if b.before + b.size < area.oldStop && b.after + b.size < area.newStop then
          blocksIn lines depth ⟨b.before + b.size, area.oldStop, b.after + b.size, area.newStop⟩
        else []
      left ++ b :: right

/-- Joins blocks that touch in both texts. -/
def joinBlocks : List Block → List Block
  | [] => []
  | [b] => [b]
  | a :: b :: rest =>
    if a.before + a.size = b.before ∧ a.after + a.size = b.after then
      joinBlocks (⟨a.before, a.after, a.size + b.size⟩ :: rest)
    else a :: joinBlocks (b :: rest)
termination_by blocks => blocks.length

/-- A stretch of equal lines, or of old lines that give way to new ones. -/
structure Change extends Area where
  equal : Bool

/-- The changes between blocks, from a place in either text on, and the blocks themselves. -/
def changesFrom (i j : Nat) : List Block → List Change
  | [] => []
  | b :: rest =>
    let gap := if i < b.before || j < b.after then [⟨⟨i, b.before, j, b.after⟩, false⟩] else []
    let same :=
      if b.size = 0 then []
      else [⟨⟨b.before, b.before + b.size, b.after, b.after + b.size⟩, true⟩]
    gap ++ same ++ changesFrom (b.before + b.size) (b.after + b.size) rest

def changes (lines : Lines) : List Change :=
  let all : Area := ⟨0, lines.old.size, 0, lines.new.size⟩
  changesFrom 0 0
    (joinBlocks (blocksIn lines (lines.old.size + 1) all) ++ [⟨all.oldStop, all.newStop, 0⟩])

/-- The number of unchanged lines shown around a change. -/
def margin : Nat := 3

def Change.tail (c : Change) : Change :=
  { c with oldStart := max c.oldStart (c.oldStop - margin),
           newStart := max c.newStart (c.newStop - margin) }

def Change.head (c : Change) : Change :=
  { c with oldStop := min c.oldStop (c.oldStart + margin),
           newStop := min c.newStop (c.newStart + margin) }

def trimFirst : List Change → List Change
  | [] => []
  | c :: rest => (if c.equal then c.tail else c) :: rest

def trimLast : List Change → List Change
  | [] => []
  | [c] => [if c.equal then c.head else c]
  | c :: rest => c :: trimLast rest

/-- Changes collected into hunks; `hunk` is the current one, the last change first. -/
def hunksFrom (hunk : List Change) : List Change → List (List Change)
  | [] => [hunk.reverse]
  | c :: rest =>
    if c.equal && 2 * margin < c.oldStop - c.oldStart then
      (c.head :: hunk).reverse :: hunksFrom [c.tail] rest
    else hunksFrom (c :: hunk) rest

def showsChange (hunk : List Change) : Bool :=
  hunk.any fun c => !c.equal

def hunks (cs : List Change) : List (List Change) :=
  (hunksFrom [] (trimLast (trimFirst cs))).filter showsChange

def rangeText (start stop : Nat) : String :=
  if stop - start = 1 then toString (start + 1)
  else if stop - start = 0 then s!"{start},0"
  else s!"{start + 1},{stop - start}"

def marked (mark : String) (lines : Array String) (start stop : Nat) : String :=
  String.join ((lines.toList.drop start).take (stop - start) |>.map (mark ++ ·))

def changeText (lines : Lines) (c : Change) : String :=
  if c.equal then marked " " lines.old c.oldStart c.oldStop
  else marked "-" lines.old c.oldStart c.oldStop ++ marked "+" lines.new c.newStart c.newStop

def hunkText (lines : Lines) (hunk : List Change) : String :=
  match hunk.head?, hunk.getLast? with
  | some first, some last =>
    s!"@@ -{rangeText first.oldStart last.oldStop} +{rangeText first.newStart last.newStop} @@\n" ++
      String.join (hunk.map (changeText lines))
  | _, _ => ""

/-- The unified difference of two versions of a file; empty when they are equal. -/
def unified (path before after : String) : String :=
  let lines := Lines.ofTexts before after
  match hunks (changes lines) with
  | [] => ""
  | hs => s!"--- a/{path}\n+++ b/{path}\n" ++ String.join (hs.map (hunkText lines))

end RubyLint.Diff
