/-!
Blank characters and lines. Three classes of blanks are in use: gaps inside a line (space and
tab), blanks between terms (gaps and line ends), and white space as the Unicode property has it,
which is what a line loses at its end.
-/

namespace StablePlan.Text

def isGap (c : Char) : Bool := c == ' ' || c == '\t'

def isBlank (c : Char) : Bool := isGap c || c == '\r' || c == '\n'

def isWhiteSpace (c : Char) : Bool :=
  let code := c.toNat
  (0x9 ≤ code && code ≤ 0xd) || code == 0x20 || code == 0x85 || code == 0xa0 || code == 0x1680 ||
    (0x2000 ≤ code && code ≤ 0x200a) || code == 0x2028 || code == 0x2029 || code == 0x202f ||
    code == 0x205f || code == 0x3000

def skipGaps (text : List Char) : List Char := text.dropWhile isGap

def skipBlanks (text : List Char) : List Char := text.dropWhile isBlank

def trimEnd (text : List Char) : List Char := (text.reverse.dropWhile isWhiteSpace).reverse

/-- The lines of a text. A line ends at a line feed, which may follow a carriage return; the last
line may lack its end. -/
def lines : List Char → List (List Char)
  | [] => []
  | '\n' :: rest => [] :: lines rest
  | '\r' :: '\n' :: rest => [] :: lines rest
  | c :: rest =>
    match lines rest with
    | [] => [[c]]
    | line :: more => (c :: line) :: more

def firstLine (text : List Char) : List Char := (lines text).headD []

theorem skipBlanks_length (text : List Char) : (skipBlanks text).length ≤ text.length :=
  (text.dropWhile_suffix isBlank).length_le

end StablePlan.Text
