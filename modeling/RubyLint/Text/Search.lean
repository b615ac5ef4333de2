/-!
# Search

Occurrences of one text inside another.
-/

namespace RubyLint.Text

def occursIn (needle : List Char) : List Char → Bool
  | [] => needle.isEmpty
  | c :: s => needle.isPrefixOf (c :: s) || occursIn needle s

end RubyLint.Text
