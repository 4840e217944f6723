import ModuleBundler.Text.Display

namespace ModuleBundler

/-- A number as it is written: `digits` divided by a power of ten. -/
structure Numeral where
  digits : Int
  /-- How many of the digits stand behind the point. -/
  places : Nat
  deriving DecidableEq, Repr

inductive Json
  | null
  | boolean (value : Bool)
  | number (value : Numeral)
  | text (value : String)
  | list (elements : List Json)
  /-- Members with the names that they go by. -/
  | object (members : List (String × Json))
  deriving Repr

namespace Numeral

/-- Whether a number is written without a point, and 64 bits can hold it with a sign or without one. -/
def isInteger (n : Numeral) : Bool :=
  n.places = 0 && -0x8000000000000000 ≤ n.digits && n.digits ≤ 0xffffffffffffffff

/-- The digits before and behind the point. -/
def split (n : Numeral) : List Char × List Char :=
  let digits := Nat.toDigits 10 n.digits.natAbs
  let filled := List.replicate (n.places + 1 - digits.length) '0' ++ digits
  (filled.take (filled.length - n.places), filled.drop (filled.length - n.places))

/-- The number with a point, and at least one digit but no needless zero behind it. -/
def decimalText (n : Numeral) : String :=
  let (whole, fraction) := n.split
  let needed := (fraction.reverse.dropWhile (· = '0')).reverse
  (if n.digits < 0 then "-" else "") ++ String.ofList whole ++ "." ++
    String.ofList (if needed.isEmpty then ['0'] else needed)

end Numeral

namespace Json

/-- What a value is called in a message about it. -/
def described : Json → String
  | null => "null"
  | boolean true => "boolean \x60true\x60"
  | boolean false => "boolean \x60false\x60"
  | number n =>
    if n.isInteger then "integer \x60" ++ toString n.digits ++ "\x60"
    else "floating point \x60" ++ n.decimalText ++ "\x60"
  | text s => "string " ++ Text.display s
  | list _ => "sequence"
  | object _ => "map"

end Json

end ModuleBundler
