import ModuleBundler.Text.Name

namespace ModuleBundler.Script.Lexer

/-- The value of a digit in a base of at most sixteen. -/
def digitValue? (base : Nat) (c : Char) : Option Nat :=
  let value :=
    if '0' ≤ c && c ≤ '9' then c.toNat - '0'.toNat
    else if 'a' ≤ c && c ≤ 'f' then c.toNat - 'a'.toNat + 10
    else if 'A' ≤ c && c ≤ 'F' then c.toNat - 'A'.toNat + 10
    else base
  if value < base then some value else none

/-- The number that exactly `count` hexadecimal digits at the beginning of the text write. -/
def fixedHex? : (count : Nat) → (value : Nat) → List Char → Option Nat
  | 0, value, _ => some value
  | count + 1, value, c :: rest =>
    match digitValue? 16 c with
    | some digit => fixedHex? count (16 * value + digit) rest
    | none => none
  | _ + 1, _, [] => none

/-- The number that the hexadecimal digits up to a closing brace write, with the count of characters
read. At least one digit is needed, and the number must not exceed the last character's. -/
def bracedHex? : (any : Bool) → (value : Nat) → List Char → Option (Nat × Nat)
  | _, _, [] => none
  | any, value, c :: rest =>
    if c = '\x7d' then
      if any then some (value, 1) else none
    else
      match digitValue? 16 c with
      | some digit =>
        if 16 * value + digit ≤ 0x10ffff then
          (bracedHex? true (16 * value + digit) rest).map fun found => (found.1, found.2 + 1)
        else none
      | none => none

/-- Reads what follows `\u`: four digits, or digits between braces. -/
def unicodeEscape? : List Char → Option (Char × Nat)
  | '\x7b' :: rest => (bracedHex? false 0 rest).map fun found => (Char.ofNat found.1, found.2 + 1)
  | cs => (fixedHex? 4 0 cs).map fun value => (Char.ofNat value, 4)

/-- Reads an octal escape. It has at most three digits and stays below 256, so a third digit may be
left over. -/
def octalEscape : List Char → Char × Nat
  | a :: b :: c :: _ =>
    match digitValue? 8 a, digitValue? 8 b, digitValue? 8 c with
    | some x, some y, some z =>
      if 64 * x + 8 * y + z < 256 then (Char.ofNat (64 * x + 8 * y + z), 3) else (Char.ofNat (8 * x + y), 2)
    | some x, some y, none => (Char.ofNat (8 * x + y), 2)
    | some x, none, _ => (Char.ofNat x, 1)
    | none, _, _ => (a, 1)
  | [a, b] =>
    match digitValue? 8 a, digitValue? 8 b with
    | some x, some y => (Char.ofNat (8 * x + y), 2)
    | some x, none => (Char.ofNat x, 1)
    | none, _ => (a, 1)
  | [a] =>
    match digitValue? 8 a with
    | some x => (Char.ofNat x, 1)
    | none => (a, 1)
  | [] => ('\\', 0)

/-- Reads what follows a backslash in a string literal. An escaped line break stands for nothing, and
any character without a meaning of its own for itself. -/
def stringEscape? : List Char → Option (Option Char × Nat)
  | [] => none
  | 'n' :: _ => some (some '\n', 1)
  | 't' :: _ => some (some '\t', 1)
  | 'r' :: _ => some (some '\r', 1)
  | 'b' :: _ => some (some '\x08', 1)
  | 'f' :: _ => some (some '\x0c', 1)
  | 'v' :: _ => some (some '\x0b', 1)
  | '\r' :: '\n' :: _ => some (none, 2)
  | 'x' :: rest => (fixedHex? 2 0 rest).map fun value => (some (Char.ofNat value), 3)
  | 'u' :: rest => (unicodeEscape? rest).map fun found => (some found.1, found.2 + 1)
  | c :: rest =>
    if c = '\n' || c = '\r' || c.toNat = 0x2028 || c.toNat = 0x2029 then some (none, 1)
    else if (digitValue? 8 c).isSome then
      let (value, length) := octalEscape (c :: rest)
      some (some value, length)
    else some (some c, 1)

end ModuleBundler.Script.Lexer
