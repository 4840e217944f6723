import ModuleBundler.Script.Grammar.Basic

namespace ModuleBundler.Script.Grammar

open Script.Parser

/-- A pattern with the value it has by default. -/
def patternWithDefault (c : Context) : Parser Unit := do
  let _ ← pattern c
  initializer c

def arrayPattern (c : Context) : Parser Unit :=
  node .pattern do
    expectMark .bracketL
    repeatWhile do
      if ← atMark .bracketR then return false
      if ← eatMark .comma then return true
      if ← eatMark .ellipsis then
        let _ ← pattern c
      else patternWithDefault c
      if ← eatMark .comma then return true
      guardThat (← atMark .bracketR)
      return false
    expectMark .bracketR

/-- One property of an object pattern. The answer is whether others may follow: the rest of an object
comes last, and has a name. -/
def patternProperty (c : Context) : Parser Bool :=
  node .property do
    if ← eatMark .ellipsis then
      guardThat (← pattern c)
      return false
    let key ← propertyName c
    if ← eatMark .colon then patternWithDefault c
    else
      guardThat (key.any Lexeme.isWord)
      initializer c
    return true

def objectPattern (c : Context) : Parser Unit :=
  node .pattern do
    expectMark .braceL
    repeatWhile do
      if ← atMark .braceR then return false
      let more ← patternProperty c
      if ← eatMark .comma then return more
      guardThat (← atMark .braceR)
      return false
    expectMark .braceR

/-- A name, or a pattern of names in brackets or braces. -/
def patternRule (c : Context) : Parser Bool := do
  if ← atMark .bracketL then
    arrayPattern c
    return false
  if ← atMark .braceL then
    objectPattern c
    return false
  let _ ← bindingName
  return true

/-- One parameter of a function. -/
def parameter (c : Context) : Parser Unit :=
  node .pattern do
    if ← eatMark .ellipsis then
      let _ ← pattern c
      initializer c
      annotation
      let _ ← eatMark .question
    else
      repeatWhile (do return (← eatFieldModifier) || (← eatModifier ["override"]))
      let _ ← pattern c
      let _ ← eatMark .question
      annotation
      initializer c

/-- The parameters of a function, with their parentheses. -/
def parameters (c : Context) : Parser Unit :=
  node .parameters do
    expectMark .parenL
    commaList .parenR (parameter c)

end ModuleBundler.Script.Grammar
