import RubyLint.Pattern.Compile
import RubyLint.Tree.Document

/-!
# Matching patterns

A match keeps a ledger of what it captured, which it carries through the pattern, through failed
attempts too.  A capture mark reserves its slot before what it marks is matched, so captures are
listed in the order of their marks, an outer one before those inside it; a name keeps the last value
bound to it, and an inner binding is made before an outer one.  An attempt that fails takes back
what it entered.  The fixed items before a rest marker are matched from the front and those after it
from the back, so a sequence is matched without backtracking.
-/

namespace RubyLint.Pattern

/-- A captured value: a node, or the run of children of a captured rest marker. -/
inductive Capture where
  | node (c : Cursor)
  | run (cs : List Cursor)
deriving Inhabited

/-- The captures of a match, in order, and those that were given a name. -/
structure Bindings where
  captures : List Capture
  named : List (String × Capture)
deriving Inhabited

namespace Bindings

/-- The capture at an index; a negative one counts back from the end. -/
def at? (b : Bindings) (i : Int) : Option Capture :=
  Indexing.get? b.captures i

def get? (b : Bindings) (name : String) : Option Capture :=
  b.named.lookup name

end Bindings

/-- What a match has captured so far: a slot for every capture mark that was passed, empty until
what is marked has matched, and the names that were given. -/
structure Ledger where
  slots : List (Option Capture)
  named : List (String × Capture)
deriving Inhabited

namespace Ledger

def empty : Ledger :=
  ⟨[], []⟩

def reserve (l : Ledger) : Ledger :=
  { l with slots := l.slots ++ [none] }

def fill (l : Ledger) (slot : Nat) (value : Capture) : Ledger :=
  { l with slots := l.slots.set slot (some value) }

def push (l : Ledger) (value : Capture) : Ledger :=
  { l with slots := l.slots ++ [some value] }

/-- Binds a name, which drops what it was bound to before. -/
def bind (l : Ledger) (name : Option String) (value : Capture) : Ledger :=
  match name with
  | none => l
  | some name => { l with named := l.named.filter (·.1 != name) ++ [(name, value)] }

/-- Takes back the slots from a number on. -/
def cut (l : Ledger) (mark : Nat) : Ledger :=
  { l with slots := l.slots.take mark }

/-- Takes back all that was entered since an earlier state. -/
def rewind (l saved : Ledger) : Ledger :=
  { l.cut saved.slots.length with named := saved.named }

/-- The captures and names of a match that is over. -/
def bindings (l : Ledger) : Bindings :=
  ⟨l.slots.reduceOption, l.named⟩

end Ledger

/-- What a pattern is matched against: the source of the nodes and the tests behind the predicate
names. -/
structure Setting where
  source : Source
  test : String → Cursor → Bool

def fixedCount (items : List Pattern) : Nat :=
  (items.filter fun p => !p.isRest).length

/-- Whether a sequence of items can match that many children at all. -/
def fits (items : List Pattern) (count : Nat) : Bool :=
  if items.any isRest then fixedCount items ≤ count else fixedCount items == count

/-- The fault of matching a rest marker against a single node. -/
def unmatchable (p : Pattern) : Fault :=
  ⟨.unmatchable p.source, "", none⟩

mutual

/-- Matches a node; says whether it matches and what the ledger holds afterwards. -/
def matchNode (setting : Setting) : Pattern → Cursor → Ledger → Except Fault (Bool × Ledger)
  | .any, _, l => .ok (true, l)
  | .kind name, c, l => .ok (c.node.kind == name, l)
  | .literal _ value, c, l => .ok (setting.source.valueOf c.node == some value, l)
  | .predicate name, c, l => .ok (setting.test name c, l)
  | .capture name body, c, l => do
    let mark := l.slots.length
    match ← matchNode setting body c l.reserve with
    | (false, l) => return (false, l.cut mark)
    | (true, l) => return (true, (l.fill mark (.node c)).bind name (.node c))
  | .choice _ branches, c, l => matchFirst setting branches c l
  | .negation body, c, l => do
    let (found, _) ← matchNode setting body c .empty
    return (!found, l)
  | .node _ head items, c, l =>
    if head.isSome && head != some c.node.kind then .ok (false, l)
    else if fits items c.namedChildren.length then do
      match ← matchItems setting items c.namedChildren l with
      | (false, l') => return (false, l'.rewind l)
      | (true, l') => return (true, l')
    else .ok (false, l)
  | .rest source mark, _, _ => .error (unmatchable (.rest source mark))

def matchFirst (setting : Setting) :
    List Pattern → Cursor → Ledger → Except Fault (Bool × Ledger)
  | [], _, l => .ok (false, l)
  | p :: ps, c, l => do
    match ← matchNode setting p c l with
    | (false, l') => matchFirst setting ps c (l'.rewind l)
    | (true, l') => return (true, l')

/-- Matches children with a sequence of items.  What was entered before a failure stays in the
ledger. -/
def matchItems (setting : Setting) :
    List Pattern → List Cursor → Ledger → Except Fault (Bool × Ledger)
  | [], children, l => .ok (children.isEmpty, l)
  | .rest _ mark :: items, children, l =>
    let count := children.length - fixedCount items
    let l := match mark with
      | none => l
      | some name => (l.push (.run (children.take count))).bind name (.run (children.take count))
    matchItems setting items (children.drop count) l
  | _ :: _, [], l => .ok (false, l)
  | p :: items, c :: children, l => do
    match ← matchNode setting p c l with
    | (false, l) => return (false, l)
    | (true, l) => matchItems setting items children l

end

/-- Matches a node; the result holds its captures. -/
def run (setting : Setting) (p : Pattern) (c : Cursor) : Except Fault (Option Bindings) := do
  let (found, l) ← matchNode setting p c .empty
  return if found then some l.bindings else none

end RubyLint.Pattern
