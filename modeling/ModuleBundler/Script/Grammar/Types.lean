import ModuleBundler.Script.Grammar.Patterns

namespace ModuleBundler.Script.Grammar

open Script.Parser

def openAngle : Mark := .binary .lt

def closeAngle : Mark := .binary .gt

/-- The types that a generic type is applied to. -/
def typeArguments : Parser Unit :=
  node .type do
    expectMark openAngle
    commaList closeAngle type

/-- One parameter of a generic declaration, with its bound and the type it is by default. -/
def typeParameter : Parser Unit := do
  let _ ← anyWord
  if ← eatKeyword .extends_ then type
  if ← eatMark (.assign .plain) then type

def typeParameters : Parser Unit :=
  node .type do
    expectMark openAngle
    commaList closeAngle typeParameter

def typeParametersIfAny : Parser Unit := do
  if ← atMark openAngle then typeParameters

/-- What a function gives back: a type, or what it finds out about one of its parameters. -/
def resultType : Parser Unit :=
  node .type do
    let asserts ← nextTwo (fun a => a.lexeme = .name "asserts") fun b => b.lexeme.isFreeName
    if asserts then advance
    let tests ← nextTwo (fun a => a.lexeme.isFreeName) fun b => b.lexeme = .name "is" && !b.afterBreak
    if tests then
      advance
      advance
      type
    else if asserts then advance
    else type

/-- The parameters and the result of something that can be called. -/
def callSignature : Parser Unit := do
  typeParametersIfAny
  parameters {}
  if ← eatMark .colon then resultType

/-- A member ends at a comma or where a statement would end. -/
def memberEnd : Parser Unit := do
  if ← eatMark .comma then return ()
  expectStatementEnd

/-- Whether a member for every key of a type comes next. -/
def atIndexSignature : Parser Bool := do
  if ← nextTwo (fun a => a.lexeme = .mark .bracketL) fun b => b.lexeme.isFreeName then thirdIs (· = .mark .colon)
  else return false

def indexSignature : Parser Unit := do
  expectMark .bracketL
  let _ ← anyWord
  expectMark .colon
  type
  expectMark .bracketR
  annotation
  memberEnd

/-- A member that is read or written through a function. -/
def accessorSignature : Parser Unit := do
  if ← eatName "get" then
    let _ ← propertyName {}
    expectMark .parenL
    expectMark .parenR
    annotation
  else
    expectName "set"
    let _ ← propertyName {}
    guardThat (← secondIs (· ≠ .mark .parenR))
    parameters {}
  memberEnd

def namedSignature (readOnly : Bool) : Parser Unit := do
  if ← eatMark .hash then
    let _ ← anyWord
  else
    let _ ← propertyName {}
  let _ ← eatMark .question
  if (← atMark .parenL) || (← atMark openAngle) then
    guardThat !readOnly
    callSignature
  else annotation
  memberEnd

def typeMember : Parser Unit :=
  node .signature do
    if (← atMark .parenL) || (← atMark openAngle) then
      callSignature
      memberEnd
    else if ← nextTwo (fun a => a.lexeme = .keyword .new_) fun b => b.lexeme = .mark .parenL || b.lexeme =
      .mark openAngle then
      advance
      callSignature
      memberEnd
    else
      let readOnly ← eatModifier ["readonly"]
      if ← atIndexSignature then indexSignature
      else if readOnly then namedSignature true
      else orElse accessorSignature (namedSignature false)

/-- The members of an object type or an interface, with their braces. -/
def typeMembers : Parser Unit := do
  expectMark .braceL
  repeatWhile do
    if ← atMark .braceR then return false
    typeMember
    return true
  expectMark .braceR

def eatSign : Parser Bool := eat fun l => l = .mark (.binary .plus) || l = .mark (.binary .minus)

/-- Whether the braces that come next hold one member for each key of a type. -/
def atMappedType : Parser Bool := do
  let found ← ahead do
    expectMark .braceL
    if ← eatSign then expectName "readonly"
    else
      let _ ← eatName "readonly"
      expectMark .bracketL
      expect Lexeme.isFreeName
      expectKeyword .in_
  return found.isSome

/-- Whether members of a mapped type are to be, or not to be, what `p` reads. -/
def eatChange (p : Parser Bool) : Parser Unit := do
  if ← eatSign then guardThat (← p)
  else
    let _ ← p

def mappedType : Parser Unit := do
  expectMark .braceL
  eatChange (eatName "readonly")
  expectMark .bracketL
  let _ ← anyWord
  expectKeyword .in_
  type
  if ← eatName "as" then type
  expectMark .bracketR
  eatChange (eatMark .question)
  annotation
  expectStatementEnd
  expectMark .braceR

/-- A name with the names of the modules it is in. A dot may be left over at its end. -/
def qualifiedName : Parser Unit := do
  let _ ← anyWord
  repeatWhile do
    if ← eatMark .dot then
      guardThat !(← atMark .hash)
      eat Lexeme.isWord
    else return false

def typeReference : Parser Unit := do
  let _ ← eatFieldModifier
  qualifiedName
  if !(← afterBreak) && (← atMark openAngle) then typeArguments

/-- The type of what a module exports. -/
def importedType : Parser Unit := do
  expectKeyword .import_
  expectMark .parenL
  let _ ← expectText
  expectMark .parenR
  if ← eatMark .dot then qualifiedName
  if ← atMark openAngle then typeArguments

def queriedType : Parser Unit := do
  expectKeyword .typeof
  if ← atKeyword .import_ then importedType else qualifiedName

def templateType : Parser Unit := do
  expectMark .backtick
  repeatWhile do
    advance
    if ← eatMark .dollarBrace then
      type
      expectMark .braceR
      return true
    else return false
  expectMark .backtick

def tupleElement : Parser Unit := do
  let _ ← attempt do
    let _ ← eatMark .ellipsis
    let _ ← anyWord
    let _ ← eatMark .question
    expectMark .colon
  if ← eatMark .ellipsis then type
  else
    type
    let _ ← eatMark .question

/-- The names of the types that are not declared anywhere. -/
def basicTypes : List String :=
  ["any", "bigint", "boolean", "intrinsic", "never", "number", "object", "string", "symbol", "undefined",
    "unknown"]

def isBasicType : Lexeme → Bool
  | .name n => basicTypes.contains n
  | .keyword k => k = .void_ || k = .null_
  | _ => false

/-- What is found out about the object that a function belongs to. -/
def thisTest : Parser Unit := do
  if ← eatName "is" then type

def simpleType : Parser Unit := do
  let next ← nextLexeme
  match next with
  | some (.text _) | some (.number _) | some (.keyword .true_) | some (.keyword .false_) => advance
  | some (.mark .backtick) => templateType
  | some (.mark (.binary .minus)) =>
    advance
    expect fun l => (l matches .number _)
  | some (.keyword .import_) => importedType
  | some (.keyword .typeof) => queriedType
  | some (.keyword .this_) =>
    advance
    if !(← afterBreak) then thisTest
  | some (.mark .braceL) => if ← atMappedType then mappedType else typeMembers
  | some (.mark .bracketL) =>
    advance
    commaList .bracketR tupleElement
  | some (.mark .parenL) =>
    advance
    type
    expectMark .parenR
  | some lexeme =>
    guardThat (lexeme matches .name _ || [Keyword.void_, .yield, .null_, .await, .break_].any fun k =>
      lexeme = .keyword k)
    if (lexeme = .name "asserts") && (← secondIs (· = .keyword .this_)) then
      advance
      advance
      thisTest
    else if isBasicType lexeme && !(← secondIs (· = .mark .dot)) then advance
    else typeReference
  | none => fail

/-- A simple type and the brackets after it, which make it the type of arrays or of a member. -/
def arrayType : Parser Unit := do
  node .type simpleType
  repeatWhile do
    if !(← afterBreak) && (← atMark .bracketL) then
      wrap .type do
        advance
        if !(← atMark .bracketR) then type
        expectMark .bracketR
      return true
    else return false

def typeOperandRule : Parser Unit := do
  if (← atName "keyof") || (← atName "unique") || (← atName "readonly") then
    node .type do
      advance
      typeOperand
  else if ← atName "infer" then
    node .type do
      advance
      let _ ← anyWord
  else arrayType

/-- Types joined by an operator. The operator may also stand before the first of them. -/
def joinedTypes (op : BinaryOp) (part : Parser Unit) : Parser Unit :=
  node .type do
    let _ ← eatMark (.binary op)
    part
    repeatWhile do
      if ← eatMark (.binary op) then
        part
        return true
      else return false

/-- Whether the parenthesis that comes next opens the parameters of a function type. -/
def atFunctionType : Parser Bool := do
  if ← atMark openAngle then return true
  let found ← ahead do
    expectMark .parenL
    if (← atMark .parenR) || (← atMark .ellipsis) then return true
    let _ ← eatFieldModifier
    if ← headIs Lexeme.isWord then advance
    else
      guardThat ((← atMark .braceL) || (← atMark .bracketL))
      let _ ← pattern {}
    if ← headIs fun l => [Mark.colon, .comma, .question, .assign .plain].any fun m => l = .mark m then return true
    if ← eatMark .parenR then atMark .arrow else return false
  return found.getD false

def functionType : Parser Unit := do
  typeParametersIfAny
  parameters {}
  expectMark .arrow
  resultType

/-- A type that is not conditional. -/
def plainType : Parser Unit := do
  if ← atFunctionType then node .type functionType
  else if (← atKeyword .new_) || (← nextTwo (fun a => a.lexeme = .name "abstract") fun b => b.lexeme = .keyword .new_)
    then
    node .type do
      let _ ← eatName "abstract"
      expectKeyword .new_
      functionType
  else joinedTypes .bitOr (joinedTypes .bitAnd typeOperandRule)

def typeRule : Parser Unit :=
  node .type do
    plainType
    if !(← afterBreak) && (← atKeyword .extends_) then
      advance
      plainType
      expectMark .question
      type
      expectMark .colon
      type

end ModuleBundler.Script.Grammar
