import ModuleBundler.Script.Parser

namespace ModuleBundler.Script.Grammar

open Script.Parser

def expression (c : Context) : Parser Shape := call (.expression c)

def assignment (c : Context) : Parser Shape := call (.assignment c)

def operation (c : Context) (atStart : Bool) : Parser Shape := call (.operation c atStart)

def operand (c : Context) : Parser Shape := call (.operand c)

def operators (c : Context) (level : Nat) (left : Shape) : Parser Shape := call (.operators c level left)

def chain (c : Context) : Parser Shape := call (.chain c)

def constructed (c : Context) : Parser Unit := call (.constructed c)

def type : Parser Unit := call .type

def typeOperand : Parser Unit := call .typeOperand

def pattern (c : Context) : Parser Bool := call (.pattern c)

def statement (c : Context) (declaring : Bool) : Parser Unit := call (.statement c declaring)

def item (c : Context) : Parser ItemKind := call (.item c)

/-- Whether the lexeme may name a variable. -/
def isBindingName : Lexeme → Bool
  | .name _ => true
  | .keyword k => k = .let_ || k = .yield || k = .this_
  | _ => false

/-- The text of a word. -/
def wordOf? : Lexeme → Option String
  | .name n => some n
  | .keyword k => some k.spelling
  | _ => none

/-- The text of the next token, if it is a word. -/
def nextWord : Parser (Option String) := do return (← nextLexeme).bind wordOf?

/-- Moves a word that is as `p` says, and gives its text. -/
def expectWord (p : Lexeme → Bool) : Parser String := do
  match (← nextLexeme).bind fun l => if p l then wordOf? l else none with
  | some text =>
    advance
    return text
  | none => fail

def bindingName : Parser String := expectWord isBindingName

def anyWord : Parser String := expectWord Lexeme.isWord

/-- Moves one of these names if what follows shows that it modifies something and is not itself
named. -/
def eatModifier (names : List String) : Parser Bool := do
  let found ← nextTwo (fun a => names.any fun n => a.lexeme = .name n) fun b =>
    !b.afterBreak && !([Mark.parenL, .parenR, .colon, .assign .plain, .question].any fun m => b.lexeme = .mark m)
  if found then advance
  return found

/-- Moves one of the words that make a parameter a field, if a parameter follows. -/
def eatFieldModifier : Parser Bool := do
  let found ← nextTwo
      (fun a => ["public", "protected", "private", "readonly"].any fun n => a.lexeme = .name n) fun b =>
    b.lexeme.isWord || b.lexeme = .mark .braceL || b.lexeme = .mark .bracketL
  if found then advance
  return found

/-- A type after a colon, if there is a colon. -/
def annotation : Parser Unit := do
  if ← eatMark .colon then type

/-- A value after an equals sign, if there is one. -/
def initializer (c : Context) : Parser Unit := do
  if ← eatMark (.assign .plain) then
    let _ ← assignment c.withIn

/-- The name of a property: a word, a string, a number, or an expression in brackets. The answer is the
lexeme, if it is a single one. -/
def propertyName (c : Context) : Parser (Option Lexeme) := do
  let next ← nextLexeme
  match next with
  | some (.mark .bracketL) =>
    node .property do
      advance
      repeatWhile do
        let _ ← assignment c.enclosed
        eatMark .comma
      expectMark .bracketR
    return none
  | some lexeme =>
    guardThat (lexeme.isWord || lexeme matches .text _ || lexeme matches .number _)
    advance
    return some lexeme
  | none => fail

/-- A word after a dot, or a private name. -/
def memberWord : Parser Unit := do
  let _ ← eatMark .hash
  let _ ← anyWord

end ModuleBundler.Script.Grammar
