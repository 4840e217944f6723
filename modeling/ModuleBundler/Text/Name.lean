import ModuleBundler.Text.NameTable
import ModuleBundler.Text.Ranges

namespace ModuleBundler.Text

def isAsciiLetter (c : Char) : Bool :=
  ('a' ≤ c && c ≤ 'z') || ('A' ≤ c && c ≤ 'Z')

/-- Whether a name may begin with the character. -/
def isNameStart (c : Char) : Bool :=
  if c.toNat < 0x80 then isAsciiLetter c || c == '$' || c == '_'
  else inRanges nameStartRanges c.toNat

/-- Whether a name may go on with the character. The two joiners count. -/
def isNamePart (c : Char) : Bool :=
  if c.toNat < 0x80 then isAsciiLetter c || c.isDigit || c == '$' || c == '_'
  else inRanges nameStartRanges c.toNat || inRanges nameContinueRanges c.toNat ||
    c.toNat == 0x200c || c.toNat == 0x200d

end ModuleBundler.Text
