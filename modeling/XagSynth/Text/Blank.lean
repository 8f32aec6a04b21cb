/-!
# Blank characters, line boundaries and trimming

Netlist text is cut into lines and trimmed with the Unicode classes of the text
model: `isBlank` holds of the white space characters and the information
separators, and `isLineBreak` of the characters that end a line, a carriage
return and line feed ending one.
-/

namespace XagSynth.Text

/-- Blank characters: tab to carriage return, the information separators
U+001C to U+001F, the space, and the Unicode spaces and separators. -/
def isBlank (c : Char) : Bool :=
  let n := c.toNat
  (0x09 ≤ n && n ≤ 0x0D) || (0x1C ≤ n && n ≤ 0x20) || n == 0x85 || n == 0xA0 ||
    n == 0x1680 || (0x2000 ≤ n && n ≤ 0x200A) || n == 0x2028 || n == 0x2029 ||
    n == 0x202F || n == 0x205F || n == 0x3000

/-- Characters that end a line: line feed, vertical tab, form feed, carriage
return, the separators U+001C to U+001E, next line, and the Unicode line and
paragraph separators. -/
def isLineBreak (c : Char) : Bool :=
  let n := c.toNat
  (0x0A ≤ n && n ≤ 0x0D) || (0x1C ≤ n && n ≤ 0x1E) || n == 0x85 || n == 0x2028 ||
    n == 0x2029

/-- The characters without the blanks at both ends. -/
def stripChars (cs : List Char) : List Char :=
  ((cs.dropWhile isBlank).reverse.dropWhile isBlank).reverse

def strip (s : String) : String := String.ofList (stripChars s.toList)

/-- Lines of a text after the characters `acc` (kept in reverse) of the
current line.  A final empty line is not a line. -/
def linesFrom (acc : List Char) : List Char → List (List Char)
  | [] => if acc.isEmpty then [] else [acc.reverse]
  | '\r' :: '\n' :: r => acc.reverse :: linesFrom [] r
  | c :: r => if isLineBreak c then acc.reverse :: linesFrom [] r else linesFrom (c :: acc) r

/-- The lines of a text, without their boundaries. -/
def lines (s : String) : List String := (linesFrom [] s.toList).map String.ofList

example : lines "" = [] := rfl

/-- The characters without the run of `c` at their end. -/
def dropTrailingChars (c : Char) (cs : List Char) : List Char :=
  (cs.reverse.dropWhile (· == c)).reverse

def dropTrailing (c : Char) (s : String) : String :=
  String.ofList (dropTrailingChars c s.toList)

end XagSynth.Text
