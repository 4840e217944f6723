import ModuleBundler.Json

namespace ModuleBundler.Json

/-- Why bytes cannot be read. -/
inductive Problem
  /-- Something stands there that does not go on with a JSON value. -/
  | malformed
  /-- The bytes end too early. -/
  | cutOff
  /-- A value stands there, but not one that fits. -/
  | unfit
  deriving DecidableEq, Repr

/-- A reader moves over the bytes to come. -/
abbrev Reader := StateT (List UInt8) (Except Problem)

/-- The byte of an ASCII character. -/
def byte (c : Char) : UInt8 := c.toNat.toUInt8

/-- What may stand between the parts of a value. -/
def isBlank (b : UInt8) : Bool := b = byte ' ' || b = byte '\n' || b = byte '\t' || b = byte '\r'

def isDigit (b : UInt8) : Bool := byte '0' ≤ b && b ≤ byte '9'

namespace Reader

variable {α : Type}

/-- The next byte, without moving on. -/
def peek? : Reader (Option UInt8) := do return (← get).head?

/-- Moves over one byte. An end of the bytes is the problem `atEnd`. -/
def take (atEnd : Problem) : Reader UInt8 := do
  match ← get with
  | [] => throw atEnd
  | b :: rest =>
    set rest
    return b

/-- Moves over the bytes for which `p` holds. -/
def takeWhile (p : UInt8 → Bool) : Reader (List UInt8) := do
  let bytes ← get
  set (bytes.dropWhile p)
  return bytes.takeWhile p

/-- Moves over blanks, and gives the byte that follows. -/
def peekPart : Reader UInt8 := do
  let _ ← takeWhile isBlank
  match ← peek? with
  | some b => return b
  | none => throw .cutOff

/-- Moves over blanks and the byte that follows. -/
def takePart : Reader UInt8 := do
  let _ ← takeWhile isBlank
  take .cutOff

/-- Moves over a byte that has to be this character. -/
def expect (c : Char) : Reader Unit := do
  if (← take .cutOff) ≠ byte c then throw .malformed

def roundsOf (step : α → Reader (Option α)) : (rounds : Nat) → α → Reader α
  | 0, _ => throw .malformed
  | rounds + 1, a => do
    match ← step a with
    | some b => roundsOf step rounds b
    | none => return a

/-- Goes from value to value as long as `step` gives a new one. Each step that does moves over at least one byte. -/
def iterate (a : α) (step : α → Reader (Option α)) : Reader α := do
  let bytes ← get
  roundsOf step (bytes.length + 1) a

/-- What follows the first letter of a word, if a word begins with it. -/
def wordAfter? (first : UInt8) : Option (List Char) :=
  if first = byte 'n' then some ['u', 'l', 'l']
  else if first = byte 't' then some ['r', 'u', 'e']
  else if first = byte 'f' then some ['a', 'l', 's', 'e']
  else none

/-- The digits of a number and the power of ten that they are multiplied with. -/
structure Scaled where
  digits : Nat
  exponent : Int

def digitsValue (digits : List UInt8) : Nat :=
  digits.foldl (fun n d => 10 * n + (d - byte '0').toNat) 0

/-- The least number that is rounded to infinity where 64 bits hold a number. -/
def hugeNumber : Nat := Nat.pow 2 1024 - Nat.pow 2 970

/-- Whether a number is rounded to infinity where 64 bits hold a number. The powers of ten are only computed where
they are needed to tell. -/
def Scaled.isHuge (n : Scaled) : Bool :=
  let size := (Nat.toDigits 10 n.digits).length + n.exponent
  n.digits ≠ 0 && (310 < size || (300 < size &&
    hugeNumber * Nat.pow 10 (-n.exponent).toNat ≤ n.digits * Nat.pow 10 n.exponent.toNat))

/-- Moves over at least one digit. -/
def digits (atEnd : Problem) : Reader (List UInt8) := do
  let first ← take atEnd
  if isDigit first then return first :: (← takeWhile isDigit) else throw .malformed

/-- Moves over a byte if it is one of these characters. -/
def takeIf (cs : List Char) : Reader (Option UInt8) := do
  match ← peek? with
  | some b => if (cs.map byte).contains b then return some (← take .malformed) else return none
  | none => return none

/-- Reads a number without its sign. What an end of the bytes inside of it means is up to `atEnd`. -/
def number (atEnd : Problem) : Reader Scaled := do
  let whole ← digits atEnd
  if whole.head? = some (byte '0') && 1 < whole.length then throw .malformed
  let fraction ← if (← takeIf ['.']).isSome then digits atEnd else pure []
  let exponent : Int ←
    if (← takeIf ['e', 'E']).isSome then
      let sign ← takeIf ['+', '-']
      let size := digitsValue (← digits atEnd)
      pure (if sign = some (byte '-') then -size else size)
    else pure 0
  return ⟨digitsValue (whole ++ fraction), exponent - fraction.length⟩

/-- The value of a digit in base sixteen. -/
def hexValue? (b : UInt8) : Option Nat :=
  if isDigit b then some (b - byte '0').toNat
  else if byte 'a' ≤ b && b ≤ byte 'f' then some ((b - byte 'a').toNat + 10)
  else if byte 'A' ≤ b && b ≤ byte 'F' then some ((b - byte 'A').toNat + 10)
  else none

/-- Reads four digits in base sixteen. -/
def unit : Reader Nat := do
  let a ← take .cutOff
  let b ← take .cutOff
  let c ← take .cutOff
  let d ← take .cutOff
  match hexValue? a, hexValue? b, hexValue? c, hexValue? d with
  | some a, some b, some c, some d => return ((a * 16 + b) * 16 + c) * 16 + d
  | _, _, _, _ => throw .malformed

/-- Reads a character above the first plane, of which the first half is there already. -/
def pairedWith (lead : Nat) : Reader Char := do
  expect '\\'
  expect 'u'
  let trail ← unit
  if 0xdc00 ≤ trail && trail ≤ 0xdfff then
    return Char.ofNat (0x10000 + (lead - 0xd800) * 0x400 + (trail - 0xdc00))
  else throw .malformed

/-- The byte that a backslash and this byte stand for. -/
def shortEscape? (b : UInt8) : Option UInt8 :=
  if b = byte '"' || b = byte '\\' || b = byte '/' then some b
  else if b = byte 'b' then some 8
  else if b = byte 'f' then some 12
  else if b = byte 'n' then some 10
  else if b = byte 'r' then some 13
  else if b = byte 't' then some 9
  else none

/-- Reads what follows a backslash, and gives the bytes that it stands for. Only for a text that is needed it matters
whether a half of a character stands alone. -/
def escape (needed : Bool) : Reader (List UInt8) := do
  let e ← take .cutOff
  if e = byte 'u' then
    let first ← unit
    if !needed then return []
    else if 0xdc00 ≤ first && first ≤ 0xdfff then throw .malformed
    else if 0xd800 ≤ first && first ≤ 0xdbff then return String.utf8EncodeChar (← pairedWith first)
    else return String.utf8EncodeChar (Char.ofNat first)
  else
    match shortEscape? e with
    | some b => return [b]
    | none => throw .malformed

/-- Reads the bytes of a text up to the quote at its end, the last one first. -/
def textBytes (needed : Bool) : Reader (List UInt8) := do
  let (bytes, _) ← iterate (([] : List UInt8), false) fun (bytes, closed) => do
    if closed then return none
    let b ← take .cutOff
    if b = byte '"' then return some (bytes, true)
    else if b = byte '\\' then return some ((← escape needed).reverse ++ bytes, false)
    else if b < 0x20 then throw .malformed
    else return some (b :: bytes, false)
  return bytes

/-- Reads a text that is needed, after the quote that it begins with. -/
def textAfterQuote : Reader String := do
  match String.fromUTF8? ⟨(← textBytes true).reverse.toArray⟩ with
  | some decoded => return decoded
  | none => throw .malformed

inductive Container
  | list
  | object
  deriving DecidableEq

/-- What should come inside of a value. -/
inductive Expected
  | value
  | elementOrEnd
  | keyOrEnd
  | key
  | colon
  /-- A value has been read. -/
  | separator
  deriving DecidableEq

/-- Moves over a value from its first byte on. Gives what should come then, and in which containers. -/
def skipFrom (first : UInt8) (containers : List Container) : Reader (List Container × Expected) := do
  if first = byte '[' then return (.list :: containers, .elementOrEnd)
  else if first = byte '\x7b' then return (.object :: containers, .keyOrEnd)
  else if first = byte '"' then
    let _ ← textBytes false
    return (containers, .separator)
  else if first = byte '-' then
    let _ ← number .malformed
    return (containers, .separator)
  else if isDigit first then
    modify (first :: ·)
    let _ ← number .malformed
    return (containers, .separator)
  else
    match wordAfter? first with
    | some word =>
      word.forM expect
      return (containers, .separator)
    | none => throw .malformed

/-- Moves over the next part of a value. -/
def skipPart (containers : List Container) (expected : Expected) : Reader (List Container × Expected) := do
  let first ← takePart
  match expected, containers with
  | .value, _ => skipFrom first containers
  | .elementOrEnd, _ =>
    if first = byte ']' then return (containers.tail, .separator) else skipFrom first containers
  | .keyOrEnd, _ =>
    if first = byte '\x7d' then return (containers.tail, .separator)
    else if first = byte '"' then
      let _ ← textBytes false
      return (containers, .colon)
    else throw .malformed
  | .key, _ =>
    if first = byte '"' then
      let _ ← textBytes false
      return (containers, .colon)
    else throw .malformed
  | .colon, _ => if first = byte ':' then return (containers, .value) else throw .malformed
  | .separator, .list :: outer =>
    if first = byte ',' then return (containers, .value)
    else if first = byte ']' then return (outer, .separator)
    else throw .malformed
  | .separator, .object :: outer =>
    if first = byte ',' then return (containers, .key)
    else if first = byte '\x7d' then return (outer, .separator)
    else throw .malformed
  | .separator, [] => throw .malformed

/-- Moves over a value. -/
def skip : Reader Unit := do
  let _ ← iterate (([] : List Container), Expected.value) fun (containers, expected) => do
    if containers.isEmpty && expected = .separator then return none
    return some (← skipPart containers expected)

/-- The problem with a value of a form that does not fit. A list or an object does not fit from its first byte on; any
other value is read before. -/
def refuse : Reader α := do
  let first ← peekPart
  if first = byte '[' || first = byte '\x7b' then throw .unfit
  else if first = byte '"' then
    let _ ← take .cutOff
    let _ ← textAfterQuote
    throw .unfit
  else if first = byte '-' || isDigit first then
    let _ ← takeIf ['-']
    if (← number .cutOff).isHuge then throw .malformed else throw .unfit
  else
    match wordAfter? first with
    | some word =>
      let _ ← take .cutOff
      word.forM expect
      throw .unfit
    | none => throw .malformed

/-- Reads a text. -/
def text : Reader String := do
  if (← peekPart) = byte '"' then
    let _ ← take .cutOff
    textAfterQuote
  else refuse

/-- Reads a text, or nothing if `null` stands in its place. -/
def optionalText : Reader (Option String) := do
  if (← peekPart) = byte 'n' then
    let _ ← take .cutOff
    ['u', 'l', 'l'].forM expect
    return none
  else return some (← text)

/-- Whether another element comes, in a list of which `isFirst` says whether no element has come yet. Moves over the
comma between two elements, but not over the end of the list. -/
def nextElement (isFirst : Bool) : Reader Bool := do
  let b ← peekPart
  if b = byte ']' then return false
  else if isFirst then return true
  else if b = byte ',' then
    let _ ← take .cutOff
    if (← peekPart) = byte ']' then throw .malformed else return true
  else throw .malformed

/-- Reads a list of texts. -/
def texts : Reader (List String) := do
  if (← peekPart) = byte '[' then
    let _ ← take .cutOff
    let found ← iterate ([] : List String) fun found => do
      if ← nextElement found.isEmpty then return some ((← text) :: found) else return none
    let _ ← takePart
    return found.reverse
  else refuse

/-- Reads a value that the bytes hold and nothing else. -/
def whole (reader : Reader α) (bytes : List UInt8) : Except Problem α := do
  let (a, rest) ← reader.run bytes
  if (rest.dropWhile isBlank).isEmpty then return a else throw .malformed

end Reader

end ModuleBundler.Json
