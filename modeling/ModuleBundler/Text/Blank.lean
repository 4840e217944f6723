/-!
White space and line breaks.

Two sets are kept apart. `Text.isBlank` is the Unicode property White_Space, which trimming uses. A
script lets a byte order mark stand between two tokens as well (`Text.isScriptBlank`), and its lines
end at a line feed, a carriage return, or one of the two Unicode separators (`Text.isLineBreak`).
-/

namespace ModuleBundler.Text

/-- The Unicode property White_Space. -/
def isBlank (c : Char) : Bool :=
  let n := c.toNat
  (0x9 ≤ n && n ≤ 0xd) || n == 0x20 || n == 0x85 || n == 0xa0 || n == 0x1680 ||
    (0x2000 ≤ n && n ≤ 0x200a) || n == 0x2028 || n == 0x2029 || n == 0x202f || n == 0x205f || n == 0x3000

/-- What may stand between two tokens of a script besides comments. -/
def isScriptBlank (c : Char) : Bool :=
  isBlank c || c.toNat == 0xfeff

/-- Where a line of a script ends. A line that ends in carriage return and line feed ends twice,
which no rule of this library can tell from once. -/
def isLineBreak (c : Char) : Bool :=
  c == '\n' || c == '\r' || c.toNat == 0x2028 || c.toNat == 0x2029

/-- The text from its first character that is not white space. -/
def trimStart (cs : List Char) : List Char := cs.dropWhile isBlank

/-- The text up to its last character that is not white space. -/
def trimEnd (cs : List Char) : List Char := (cs.reverse.dropWhile isBlank).reverse

/-- The text between its first and its last character that is not white space. -/
def trim (cs : List Char) : List Char := trimEnd (trimStart cs)

/-- How many characters of white space the text begins with. -/
def blankLength (cs : List Char) : Nat := (cs.takeWhile isBlank).length

end ModuleBundler.Text
