import ModuleBundler.Script.Lexer.Literal
import ModuleBundler.Script.Lexer.Situation
import ModuleBundler.Script.Lexer.Trivia

namespace ModuleBundler.Script.Lexer

/-- A word by its letters. What is reserved must be spelled without escapes. -/
def word? (reading : NameReading) : Option Lexeme :=
  let text := String.ofList reading.letters
  match Keyword.ofSpelling? text with
  | some k => if reading.escaped then none else some (.keyword k)
  | none => if reading.escaped && guardedNames.contains text then none else some (.name text)

/-- The token that the text begins with, and its length. -/
def lexeme? (operandNext : Bool) (cs : List Char) : Option (Lexeme × Nat) :=
  match cs with
  | [] => none
  | c :: rest =>
    if c = '\\' || Text.isNameStart c then
      match readName true 0 cs with
      | some reading => (word? reading).map fun lexeme => (lexeme, reading.length)
      | none => none
    else if c = '"' || c = '\'' then
      (readString cs).map fun found => (.text (String.ofList found.1), found.2)
    else if c.isDigit || (c = '.' && rest.head?.any Char.isDigit) then
      (numberLength? cs).map fun length => (.number (String.ofList (cs.take length)), length)
    else if c = '/' && operandNext then
      (regexLength? cs).map fun length => (.regex (String.ofList (cs.take length)), length)
    else if c = '/' then
      let (m, length) := Mark.scanSlash cs
      some (.mark m, length)
    else (Mark.scan? cs).map fun found => (.mark found.1, found.2)

/-- The piece of a template that the text begins with, and the mark that ends it, with their lengths. -/
def chunk? (cs : List Char) : Option (Lexeme × Nat × Lexeme × Nat) :=
  match chunkLength? false cs with
  | none => none
  | some length =>
    let piece := Lexeme.chunk (String.ofList (cs.take length))
    match cs.drop length with
    | '\x60' :: _ => some (piece, length, .mark .backtick, 1)
    | _ => some (piece, length, .mark .dollarBrace, 2)

/-- Reads tokens up to the end of the text. `position` is the place of the next character, `skip` counts
the characters that belong to tokens read already, and `read` holds these, the newest first. -/
def scan : (skip position : Nat) → Situation → (read : List Token) → List Char → Option (List Token)
  | _, _, s, read, [] => if s.inTemplate then none else some read.reverse
  | skip + 1, position, s, read, _ :: rest => scan skip (position + 1) s read rest
  | 0, position, s, read, c :: rest =>
    if s.inTemplate then
      match chunk? (c :: rest) with
      | none => none
      | some (piece, length, closer, closerLength) =>
        let middle := position + length
        let first : Token := ⟨piece, position, middle, false⟩
        let second : Token := ⟨closer, middle, middle + closerLength, false⟩
        scan (length + closerLength - 1) (position + 1) ((s.after first).after second) (second :: first :: read) rest
    else
      match trivia .between s.previous.isNone (c :: rest) with
      | none => none
      | some (blank, broken) =>
        match (c :: rest).drop blank with
        | [] => some read.reverse
        | text =>
          match lexeme? s.operandNext text with
          | none => none
          | some (lexeme, length) =>
            let start := position + blank
            let token : Token := ⟨lexeme, start, start + length, broken⟩
            scan (blank + length - 1) (position + 1) (s.after token) (token :: read) rest

/-- The tokens of a script. A first line that names a program to run is passed over. -/
def tokenize? (cs : List Char) : Option (List Token) :=
  scan (hashBang cs) 0 .initial [] cs

end ModuleBundler.Script.Lexer
