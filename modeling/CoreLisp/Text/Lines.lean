/-!
# Lines and blank lines

A line ends with a line feed, and a carriage return right in front of the line
feed does not belong to it. What follows the last line feed is a line if it is
not empty.
-/
namespace CoreLisp.Text

/-- A line in reverse without the carriage return at its end. -/
def trimReturn : List Char → List Char
  | '\r' :: line => line
  | line => line

/-- The lines of a text, when the characters of `line` have been read, latest
first. -/
def linesFrom (line : List Char) : List Char → List String
  | [] => if line.isEmpty then [] else [String.ofList line.reverse]
  | '\n' :: cs => String.ofList (trimReturn line).reverse :: linesFrom [] cs
  | c :: cs => linesFrom (c :: line) cs

def lines (s : String) : List String := linesFrom [] s.toList

/-- The code points of Unicode white space. -/
def whiteSpaceRanges : List (Nat × Nat) :=
  [(0x9, 0xd), (0x20, 0x20), (0x85, 0x85), (0xa0, 0xa0), (0x1680, 0x1680), (0x2000, 0x200a),
   (0x2028, 0x2029), (0x202f, 0x202f), (0x205f, 0x205f), (0x3000, 0x3000)]

def isWhiteSpace (c : Char) : Bool :=
  whiteSpaceRanges.any fun (lo, hi) => lo ≤ c.toNat && c.toNat ≤ hi

def isBlankLine (s : String) : Bool := s.toList.all isWhiteSpace

end CoreLisp.Text
