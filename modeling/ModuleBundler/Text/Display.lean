import ModuleBundler.Text.HiddenTable
import ModuleBundler.Text.Ranges

namespace ModuleBundler.Text

/-- The digits of a number in base sixteen. -/
def hexText (n : Nat) : List Char := Nat.toDigits 16 n

/-- Whether a reader could not see the character, or not apart from the one before it. -/
def isHidden (c : Char) : Bool :=
  if c.toNat < 0x80 then c.toNat < 0x20 || c.toNat = 0x7f else inRanges hiddenRanges c.toNat

def displayChar (c : Char) : List Char :=
  if c = '"' then ['\\', '"']
  else if c = '\\' then ['\\', '\\']
  else if c = '\n' then ['\\', 'n']
  else if c = '\r' then ['\\', 'r']
  else if c = '\t' then ['\\', 't']
  else if c.toNat = 0 then ['\\', '0']
  else if isHidden c then ['\\', 'u', '\x7b'] ++ hexText c.toNat ++ ['\x7d']
  else [c]

/-- One name as it is shown. -/
def display (name : String) : String := String.ofList ('"' :: (name.toList.flatMap displayChar ++ ['"']))

/-- A list of names as it is shown. -/
def displayAll (names : List String) : String := "[" ++ ", ".intercalate (names.map display) ++ "]"

end ModuleBundler.Text
