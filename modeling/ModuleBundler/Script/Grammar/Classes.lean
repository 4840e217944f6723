import ModuleBundler.Script.Grammar.Types

namespace ModuleBundler.Script.Grammar

open Script.Parser

/-- Statements in braces. -/
def block (c : Context) : Parser Unit :=
  node .block do
    expectMark .braceL
    repeatWhile do
      if ← atMark .braceR then return false
      statement c.block true
      return true
    expectMark .braceR

/-- A function from its parameters on. The body may be left out where a statement may end. -/
def functionRest (c : Context) (generator : Bool) : Parser Unit := do
  let inside := c.body generator
  typeParametersIfAny
  parameters inside
  if ← eatMark .colon then resultType
  if ← atMark .braceL then block inside
  else if ← eatStatementEnd then return ()
  else block inside

/-- A function from its keyword on, which may need a name. -/
def functionFrom (c : Context) (named : Bool) : Parser Unit := do
  expectKeyword .function
  let generator ← eatMark (.binary .times)
  if named then
    let _ ← bindingName
  else
    let _ ← eat Lexeme.isFreeName
  functionRest c generator

/-- Whether a member that has been named is a function. -/
def atMethod : Parser Bool := do return (← atMark .parenL) || (← atMark openAngle)

/-- Whether a member that has been named is a field. -/
def atField : Parser Bool := do
  return (← headIs fun l => l = .mark .bang || l = .mark .colon || l = .mark (.assign .plain)) || (← atStatementEnd)

/-- A field from behind its name on. The semicolon after a value may be left out. -/
def fieldRest (c : Context) : Parser Unit := do
  let _ ← eatMark .question
  let _ ← eatMark .bang
  annotation
  initializer { ambient := c.ambient }
  let _ ← eatStatementEnd

/-- A function that is a member, from behind its name on. -/
def methodRest (c : Context) (generator : Bool) : Parser Unit := do
  let _ ← eatMark .question
  functionRest c generator

/-- The name of a member, which may be private. The answer is the lexeme, if it is a single one. -/
def memberName (c : Context) : Parser (Option Lexeme) := do
  if ← eatMark .hash then
    let _ ← anyWord
    return none
  else propertyName c

/-- A member from behind the words that modify it on. -/
def namedMember (c : Context) : Parser Unit := do
  if ← eatMark (.binary .times) then
    let _ ← memberName c
    methodRest c true
  else
    let key ← memberName c
    let _ ← eatMark .question
    if ← atMethod then methodRest c false
    else if ← atField then fieldRest c
    else if key = some (.name "async") && !(← afterBreak) then
      let generator ← eatMark (.binary .times)
      let _ ← memberName c
      methodRest c generator
    else if key = some (.name "get") || key = some (.name "set") then
      let _ ← memberName c
      methodRest c false
    else fail

/-- A member from behind `static` on, if that word is there. -/
def memberAfterStatic (c : Context) (isStatic : Bool) : Parser Unit := do
  repeatWhile (eatModifier ["abstract", "readonly", "override"])
  if isStatic && (← atMark .braceL) then block {}
  else if ← atIndexSignature then indexSignature
  else namedMember c

/-- One member of a class. Each word that modifies a member may be the name of one instead. -/
def classMember (c : Context) : Parser Unit :=
  node .member do
    if ← eatMark .semicolon then return ()
    let early ← eatName "declare"
    let _ ← eatModifier ["public", "protected", "private"]
    let late ← if early then pure false else eatName "declare"
    if (early || late) && (← atMethod) then methodRest c false
    else if (early || late) && (← atField) then fieldRest c
    else
      let isStatic ← eatName "static"
      if isStatic && (← atMethod) then methodRest c false
      else if isStatic && !(← atMark .braceL) && (← atField) then fieldRest c
      else memberAfterStatic c isStatic

def classBody (c : Context) : Parser Unit :=
  node .classBody do
    expectMark .braceL
    repeatWhile do
      if ← atMark .braceR then return false
      classMember c
      return true
    expectMark .braceR

/-- The interfaces that a class or an interface builds on. -/
def heritage : Parser Unit :=
  repeatWhile do
    if ← headIs fun l => l = .mark .braceL || l = .name "implements" || l = .keyword .extends_ then return false
    qualifiedName
    if ← atMark openAngle then typeArguments
    eatMark .comma

/-- The class that a class extends. Interfaces may follow it. -/
def superclass (c : Context) : Parser Unit := do
  let _ ← chain c.enclosed
  if ← atMark openAngle then typeArguments
  if ← eatMark .comma then heritage

/-- A class from its keyword on, which may need a name. -/
def classFrom (c : Context) (named : Bool) : Parser Unit := do
  expectKeyword .class_
  if named then
    let _ ← bindingName
  else
    let _ ← eat Lexeme.isFreeName
  typeParametersIfAny
  repeatWhile do
    if ← eatKeyword .extends_ then
      superclass c
      return true
    else if ← eatName "implements" then
      heritage
      return true
    else return false
  classBody { ambient := c.ambient }

end ModuleBundler.Script.Grammar
