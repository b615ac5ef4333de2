import RubyLint.Pattern.Match

/-!
# Ready-made predicates

Tests on nodes that a pattern can name.
-/

namespace RubyLint.Pattern

/-- A named test on the nodes of a source. -/
structure Predicate where
  name : String
  test : Source → Cursor → Bool

/-- The tests that a pattern can be given: a single character, a leaf, a node over several lines, a
text that ends with an exclamation mark, and a node with a value that is not empty. -/
def stockPredicates : List Predicate := [
  ⟨"short?", fun s c => (s.textOf c.node).length == 1⟩,
  ⟨"leaf", fun _ c => c.node.children.isEmpty⟩,
  ⟨"multiline?", fun s c => s.spansLines c.node⟩,
  ⟨"bang!", fun s c => (s.textOf c.node).toList.getLast? == some '!'⟩,
  ⟨"truthy", fun s c => (s.valueOf c.node).getD "" != ""⟩]

/-- The setting of a source with the ready-made predicates. -/
def Setting.stock (source : Source) : Setting where
  source := source
  test name c := match stockPredicates.find? (·.name == name) with
    | none => false
    | some p => p.test source c

end RubyLint.Pattern
