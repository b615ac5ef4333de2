import RubyLint.Tree.Node

/-!
# The Ruby grammar

The names of the grammar's nodes, against which patterns are checked, and the language that the
rules are written for.
-/

namespace RubyLint.Grammar

def language : String :=
  "ruby"

/-- The kinds of named nodes that a Ruby tree can hold. -/
def nodeKinds : List String := [
  "alias", "alternative_pattern", "argument_list", "array", "array_pattern", "as_pattern",
  "assignment", "bare_string", "bare_symbol", "begin", "begin_block", "binary", "block",
  "block_argument", "block_body", "block_parameter", "block_parameters", "body_statement",
  "break", "call", "case", "case_match", "chained_string", "character", "class",
  "class_variable", "comment", "complex", "conditional", "constant", "delimited_symbol",
  "destructured_left_assignment", "destructured_parameter", "do", "do_block",
  "element_reference", "else", "elsif", "empty_statement", "encoding", "end_block", "ensure",
  "escape_sequence", "exception_variable", "exceptions", "expression_reference_pattern", "false",
  "file", "find_pattern", "float", "for", "forward_argument", "forward_parameter",
  "global_variable", "hash", "hash_key_symbol", "hash_pattern", "hash_splat_argument",
  "hash_splat_nil", "hash_splat_parameter", "heredoc_beginning", "heredoc_body",
  "heredoc_content", "heredoc_end", "identifier", "if", "if_guard", "if_modifier", "in",
  "in_clause", "instance_variable", "integer", "interpolation", "keyword_parameter",
  "keyword_pattern", "lambda", "lambda_parameters", "left_assignment_list", "line",
  "match_pattern", "method", "method_parameters", "module", "next", "nil", "operator",
  "operator_assignment", "optional_parameter", "pair", "parenthesized_pattern",
  "parenthesized_statements", "pattern", "program", "range", "rational", "redo", "regex",
  "rescue", "rescue_modifier", "rest_assignment", "retry", "return", "right_assignment_list",
  "scope_resolution", "self", "setter", "simple_symbol", "singleton_class", "singleton_method",
  "splat_argument", "splat_parameter", "string", "string_array", "string_content", "subshell",
  "super", "superclass", "symbol_array", "test_pattern", "then", "true", "unary", "undef",
  "uninterpreted", "unless", "unless_guard", "unless_modifier", "until", "until_modifier",
  "variable_reference_pattern", "when", "while", "while_modifier", "yield", "ERROR"]

/-- The kinds of a tree's named nodes that the grammar does not know, in order and once each. -/
def unknownKinds (root : Node) : List String :=
  let kinds := ((Cursor.root root).nodes.filter (·.node.named)).map (·.node.kind)
  ((kinds.filter fun kind => !nodeKinds.contains kind).eraseDups).mergeSort (· ≤ ·)

end RubyLint.Grammar
