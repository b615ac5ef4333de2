/-!
# Lines of a text

Splitting a text into lines that keep their ends.  A line ends at a newline, a carriage return, both
together, or one of the other line and page breaks of Unicode.
-/

namespace RubyLint.Text

def isLineBreak (c : Char) : Bool :=
  let code := c.toNat
  (10 ≤ code && code ≤ 13) || (28 ≤ code && code ≤ 30) || code == 0x85 || code == 0x2028 ||
    code == 0x2029

/-- The lines of a text with their ends; `line` holds what was read of the current one, the last
character first. -/
def linesFrom (line : List Char) : List Char → List String
  | [] => if line.isEmpty then [] else [String.ofList line.reverse]
  | '\r' :: '\n' :: rest => String.ofList ('\n' :: '\r' :: line).reverse :: linesFrom [] rest
  | c :: rest =>
    if isLineBreak c then String.ofList (c :: line).reverse :: linesFrom [] rest
    else linesFrom (c :: line) rest

def lines (text : String) : List String :=
  linesFrom [] text.toList

end RubyLint.Text
