import ModuleBundler.Script.Grammar.Classes

namespace ModuleBundler.Script.Grammar

open Script.Parser

/-- A template, piece by piece, with the substitutions between the pieces. -/
def templateParts (c : Context) : Parser Unit := do
  expectMark .backtick
  repeatWhile do
    advance
    if ← eatMark .dollarBrace then
      let _ ← expression c.enclosed
      expectMark .braceR
      return true
    else return false
  expectMark .backtick

/-- The arguments of a call, with their parentheses. -/
def arguments (c : Context) : Parser Unit :=
  node .arguments do
    expectMark .parenL
    commaList .parenR do
      let _ ← eatMark .ellipsis
      let _ ← assignment c.enclosed

/-- What is known of the elements read so far. -/
structure ElementsRead where
  /-- Whether the array could be read as a pattern. -/
  pattern : Bool := true
  /-- Whether an element has been read that stands for several. -/
  spread : Bool := false
  /-- Whether the next element needs a comma before it. -/
  commaDue : Bool := false

/-- One more element, comma or hole. In a pattern, the element that stands for the rest comes last. -/
def arrayStep (c : Context) (seen : ElementsRead) : Parser (Option ElementsRead) := do
  if ← atMark .bracketR then return none
  if ← eatMark .comma then
    return some { seen with commaDue := false, pattern := seen.pattern && (seen.commaDue || !seen.spread) }
  guardThat !seen.commaDue
  let spread ← eatMark .ellipsis
  let shape ← assignment c.withIn
  return some ⟨seen.pattern && !seen.spread && shape.isTarget, seen.spread || spread, true⟩

def array (c : Context) : Parser Shape :=
  node .array do
    expectMark .bracketL
    let seen ← iterate {} (arrayStep c)
    expectMark .bracketR
    return .literal seen.pattern

inductive PropertyForm
  /-- A property with a value, and whether that could be read as a pattern. -/
  | value (pattern : Bool)
  | method
  | spread (pattern : Bool)

/-- Whether nothing that goes on with a property comes after its name. The property has no value then. -/
def atMissingValue (key : Option Lexeme) : Parser Bool :=
  headIs fun l =>
    !(l.isWord || l matches .text _ || l matches .number _ ||
        [Mark.parenL, .bracketL, .colon, .comma, .question, .assign .plain, .binary .times, openAngle].any
          fun m => l = .mark m) &&
      !(l = .mark .braceR && key.any Lexeme.isWord)

/-- A property from behind its name on. -/
def propertyRest (c : Context) (key : Option Lexeme) : Parser PropertyForm := do
  if ← atMissingValue key then return .value true
  if ← eatMark .colon then
    let shape ← assignment c.withIn
    return .value shape.isTarget
  if ← atMethod then
    functionRest c false
    return .method
  guardThat (key.any Lexeme.isWord)
  let _ ← eatMark .question
  if ← eatMark (.assign .plain) then
    let _ ← assignment c.withIn
    return .value true
  if (← atMark .comma) || (← atMark .braceR) then return .value true
  if key = some (.name "async") then
    let generator ← eatMark (.binary .times)
    let _ ← propertyName c
    functionRest c generator
    return .method
  guardThat (key = some (.name "get") || key = some (.name "set"))
  let _ ← propertyName c
  functionRest c false
  return .method

def property (c : Context) : Parser PropertyForm :=
  node .property do
    if ← eatMark .ellipsis then
      let shape ← assignment c.withIn
      return .spread shape.isTarget
    if ← eatMark (.binary .times) then
      let _ ← propertyName c
      functionRest c true
      return .method
    let _ ← eatFieldModifier
    propertyRest c (← propertyName c)

/-- What is known of the properties read so far. -/
structure PropertiesRead where
  /-- Whether the object could be read as a pattern. -/
  pattern : Bool := true
  /-- Whether a property has been read that stands for the rest. -/
  spread : Bool := false
  commaDue : Bool := false

/-- One more property. In a pattern there are no methods, and the property that stands for the rest comes
last. -/
def objectStep (c : Context) (seen : PropertiesRead) : Parser (Option PropertiesRead) := do
  if ← atMark .braceR then return none
  if seen.commaDue then
    expectMark .comma
    return some { seen with commaDue := false }
  match ← property c with
  | .value pattern => return some ⟨seen.pattern && !seen.spread && pattern, seen.spread, true⟩
  | .method => return some ⟨false, seen.spread, true⟩
  | .spread pattern => return some ⟨seen.pattern && !seen.spread && pattern, true, true⟩

def object (c : Context) : Parser Shape :=
  node .object do
    expectMark .braceL
    let seen ← iterate {} (objectStep c)
    expectMark .braceR
    return .literal seen.pattern

end ModuleBundler.Script.Grammar
