import ModuleBundler.Script.Lexer.Escape
import ModuleBundler.Text.Blank

namespace ModuleBundler.Script.Lexer

structure NameReading where
  letters : List Char
  length : Nat
  escaped : Bool

/-- The name that the text begins with, in which an escape may stand for any character of a name. -/
def readName (first : Bool) : (skip : Nat) → List Char → Option NameReading
  | skip + 1, _ :: rest => (readName first skip rest).map fun found => { found with length := found.length + 1 }
  | 0, c :: rest =>
    if c = '\\' then
      match rest with
      | 'u' :: more =>
        match unicodeEscape? more with
        | some (value, length) =>
          if if first then Text.isNameStart value else Text.isNamePart value then
            (readName false (length + 1) rest).map fun found =>
              { letters := value :: found.letters, length := found.length + 1, escaped := true }
          else none
        | none => none
      | _ => none
    else if if first then Text.isNameStart c else Text.isNamePart c then
      (readName false 0 rest).map fun found =>
        { found with letters := c :: found.letters, length := found.length + 1 }
    else some ⟨[], 0, false⟩
  | _, [] => some ⟨[], 0, false⟩

/-- Reads a string literal from behind its opening quote. Only an escape may take a line feed or a
carriage return into the literal; the two Unicode separators may stand in it as they are. -/
def readStringTail (quote : Char) : (skip : Nat) → List Char → Option (List Char × Nat)
  | _, [] => none
  | skip + 1, _ :: rest => (readStringTail quote skip rest).map fun found => (found.1, found.2 + 1)
  | 0, c :: rest =>
    if c = quote then some ([], 1)
    else if c = '\\' then
      match stringEscape? rest with
      | some (value, length) =>
        (readStringTail quote length rest).map fun found => (value.toList ++ found.1, found.2 + 1)
      | none => none
    else if c = '\n' || c = '\r' then none
    else (readStringTail quote 0 rest).map fun found => (c :: found.1, found.2 + 1)

/-- Reads the string literal that the text begins with. -/
def readString : List Char → Option (List Char × Nat)
  | '"' :: rest => (readStringTail '"' 0 rest).map fun found => (found.1, found.2 + 1)
  | '\'' :: rest => (readStringTail '\'' 0 rest).map fun found => (found.1, found.2 + 1)
  | _ => none

/-- Number of characters of the digits and separators that the text begins with; at least one digit is
needed. -/
def digitsLength? (base : Nat) (cs : List Char) : Option Nat :=
  let digits := cs.takeWhile fun c => c = '_' || (digitValue? base c).isSome
  if digits.all (· = '_') then none else some digits.length

/-- A name must not follow a number immediately. -/
def endNumber? (length : Nat) (cs : List Char) : Option Nat :=
  match cs.drop length with
  | c :: _ => if Text.isNameStart c then none else some length
  | [] => some length

/-- Number of signs that the text begins with. -/
def signLength : List Char → Nat
  | '+' :: _ | '-' :: _ => 1
  | _ => 0

/-- Length of a number with the exponent, if there is one, behind its first `length` characters. -/
def exponentLength? (length : Nat) (cs : List Char) : Option Nat :=
  match cs.drop length with
  | c :: rest =>
    if c = 'e' || c = 'E' then
      let sign := signLength rest
      match digitsLength? 10 (rest.drop sign) with
      | some digits => endNumber? (length + 1 + sign + digits) cs
      | none => none
    else endNumber? length cs
  | [] => some length

/-- Number of digits and separators that the text begins with, perhaps none. -/
def fractionLength (cs : List Char) : Nat :=
  (cs.takeWhile fun c => c = '_' || c.isDigit).length

/-- Length of a number with a base of its own, or of an integer of any size. -/
def radixLength? (base : Nat) (cs : List Char) : Option Nat :=
  match digitsLength? base (cs.drop 2) with
  | some digits =>
    match cs.drop (2 + digits) with
    | 'n' :: _ => endNumber? (3 + digits) cs
    | _ => endNumber? (2 + digits) cs
  | none => none

/-- Length of the number that the text begins with. A number that begins with a zero and has octal
digits only is read as an octal number, which has neither fraction nor exponent. -/
def numberLength? (cs : List Char) : Option Nat :=
  match cs with
  | '0' :: 'x' :: _ | '0' :: 'X' :: _ => radixLength? 16 cs
  | '0' :: 'o' :: _ | '0' :: 'O' :: _ => radixLength? 8 cs
  | '0' :: 'b' :: _ | '0' :: 'B' :: _ => radixLength? 2 cs
  | '.' :: rest => exponentLength? (1 + fractionLength rest) cs
  | _ =>
    match digitsLength? 10 cs with
    | none => none
    | some digits =>
      let octal := cs.head? = some '0' && 1 < digits && (cs.take digits).all fun c => c ≠ '8' && c ≠ '9'
      match cs.drop digits with
      | 'n' :: _ => endNumber? (digits + 1) cs
      | '.' :: rest =>
        if octal then some digits else exponentLength? (digits + 1 + fractionLength rest) cs
      | _ => if octal then endNumber? digits cs else exponentLength? digits cs

/-- Number of characters up to and including the slash that ends the body of a regular expression. A
slash after a backslash or in brackets does not end it, and it stays on one line. -/
def regexBodyLength? : (escaped inClass : Bool) → List Char → Option Nat
  | _, _, [] => none
  | escaped, inClass, c :: rest =>
    if Text.isLineBreak c then none
    else if escaped then (regexBodyLength? false inClass rest).map (· + 1)
    else if c = '/' && !inClass then some 1
    else (regexBodyLength? (c = '\\') (c = '[' || (inClass && c ≠ ']')) rest).map (· + 1)

/-- Length of the regular expression, with its flags, that the text begins with. -/
def regexLength? (cs : List Char) : Option Nat :=
  match regexBodyLength? false false (cs.drop 1) with
  | none => none
  | some body =>
    match cs.drop (body + 1) with
    | c :: rest =>
      if Text.isNameStart c then some (body + 2 + (rest.takeWhile Text.isNamePart).length)
      else some (body + 1)
    | [] => some (body + 1)

/-- Number of characters of a template up to the mark that ends it or opens a substitution. A character
after a backslash is passed over. -/
def chunkLength? : (escaped : Bool) → List Char → Option Nat
  | _, [] => none
  | true, _ :: rest => (chunkLength? false rest).map (· + 1)
  | false, '\x60' :: _ => some 0
  | false, '$' :: '\x7b' :: _ => some 0
  | false, c :: rest => (chunkLength? (c = '\\') rest).map (· + 1)

end ModuleBundler.Script.Lexer
