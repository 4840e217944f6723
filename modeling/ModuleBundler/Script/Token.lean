import ModuleBundler.Script.Mark
import ModuleBundler.Script.Word

namespace ModuleBundler.Script

inductive Lexeme
  | keyword (k : Keyword)
  | name (text : String)
  | mark (m : Mark)
  /-- A number as it is written. -/
  | number (spelling : String)
  /-- A string literal, by its value. -/
  | text (value : String)
  /-- A regular expression with its delimiters and flags. -/
  | regex (spelling : String)
  /-- A piece of a template between its delimiters, as it is written. -/
  | chunk (spelling : String)
  deriving DecidableEq, Repr

structure Token where
  lexeme : Lexeme
  start : Nat
  stop : Nat
  /-- Whether a line ends between the token before and this one. It does before the first token. -/
  afterBreak : Bool
  deriving DecidableEq, Repr

namespace Lexeme

/-- Whether an operand may follow the lexeme whatever stands around it. -/
def precedesOperand : Lexeme → Bool
  | .keyword k => k.precedesOperand
  | .mark m => m.precedesOperand
  | _ => false

/-- Whether the lexeme is the literal of a string, a regular expression or a piece of a template. The
lines of these are never touched. -/
def isQuoted : Lexeme → Bool
  | .text _ | .regex _ | .chunk _ => true
  | _ => false

/-- Whether the lexeme is a piece of a template. -/
def isChunk : Lexeme → Bool
  | .chunk _ => true
  | _ => false

def isKeyword : Lexeme → Bool
  | .keyword _ => true
  | _ => false

/-- Whether the lexeme reads as a word. -/
def isWord : Lexeme → Bool
  | .keyword _ | .name _ => true
  | _ => false

/-- Whether the lexeme is a name that nothing reserves. -/
def isFreeName : Lexeme → Bool
  | .name n => !guardedNames.contains n
  | _ => false

end Lexeme

end ModuleBundler.Script
