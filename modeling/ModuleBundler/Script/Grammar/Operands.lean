import ModuleBundler.Script.Grammar.Literals
import ModuleBundler.Script.Grammar.Operators

namespace ModuleBundler.Script.Grammar

open Script.Parser

/-- The body of an arrow function. The answer is whether it is a block. -/
def arrowBody (c : Context) : Parser Bool := do
  if ← atMark .braceL then
    block c.arrowBody
    return true
  else
    let _ ← assignment c.arrowBody
    return false

/-- An arrow function after `async` whose parameters have types that it is generic in. -/
def genericAsyncArrow (c : Context) : Parser Shape :=
  node .arrow do
    expectName "async"
    typeParameters
    parameters c
    if ← eatMark .colon then resultType
    expectMark .arrow
    let _ ← arrowBody c
    return .arrow

/-- An assignment to what has been read already, if one comes next. -/
def assignmentAfter (c : Context) (target : Shape) : Parser Shape := do
  match ← assignmentAhead? with
  | none => return target
  | some op =>
    guardThat (target.isTarget || op ≠ .plain)
    wrap .assignment do
      advanceOperator
      let _ ← assignment c
    return .other

/-- The branches of a conditional expression behind its condition. -/
def branches (c : Context) : Parser Shape := do
  wrap .conditional do
    expectMark .question
    let _ ← assignment c.consequent
    expectMark .colon
    let _ ← assignment c.alternative
  return .operation

/-- What is known of the contents of parentheses read so far. -/
structure ContentsRead where
  count : Nat := 0
  /-- Whether something can only be a parameter, because a type or a question mark follows it. -/
  typed : Bool := false
  spread : Bool := false
  /-- Whether all could be parameters. -/
  parameters : Bool := true

/-- One of the things that parentheses hold. -/
def contentStep (c : Context) (seen : ContentsRead) : Parser (Option ContentsRead) := do
  if ← atMark .parenR then return none
  if 0 < seen.count then expectMark .comma
  if ← atMark .parenR then return none
  node .pattern do
    let _ ← eatFieldModifier
    let spread ← eatMark .ellipsis
    let shape ←
      if ← headIs Lexeme.isFreeName then do
        let shape ← operation c.withIn !spread
        if spread || shape = .arrow then pure shape else assignmentAfter c.withIn shape
      else assignment c.withIn
    let optional ← nextTwo (fun a => a.lexeme = .mark .question) fun b =>
      [Mark.comma, .colon, .parenR, .assign .plain].any fun m => b.lexeme = .mark m
    if optional then
      advance
      guardThat (shape matches .name _)
    let shape ← if !spread && (← atMark .question) then branches c else pure shape
    let colon ← atMark .colon
    let typed := optional || colon
    if typed then
      guardThat (shape matches .name _ || shape = .literal true)
      annotation
      initializer c
    let parameters := seen.parameters && !seen.spread && shape.isTarget
    return some ⟨seen.count + 1, seen.typed || typed, seen.spread || spread, parameters⟩

def contents (c : Context) : Parser ContentsRead := do
  expectMark .parenL
  let seen ← iterate {} (contentStep c.enclosed)
  expectMark .parenR
  return seen

/-- An arrow function from behind its parameters on. If an operator follows a block, it takes the whole
function as its operand. -/
def arrowRest (c : Context) (seen : ContentsRead) (typed : Bool) : Parser Shape := do
  let isBlock ← wrap .arrow do
    if typed then
      expectMark .colon
      resultType
    guardThat !(← afterBreak)
    expectMark .arrow
    guardThat seen.parameters
    arrowBody c
  if isBlock && (← atMarkOperator) then operators c 0 .operation else return .arrow

/-- An arrow function with a result type, where the colon before the type may also be that of a
conditional expression. -/
def branchArrow (c : Context) (seen : ContentsRead) : Parser Shape := do
  wrap .arrow do
    expectMark .colon
    resultType
    expectMark .arrow
    guardThat seen.parameters
    let _ ← arrowBody c
  if c.colonAhead then guardThat (← atMark .colon)
  return .arrow

/-- Whether a colon, a type and an arrow come next. -/
def atResultType : Parser Bool := do
  let found ← ahead do
    expectMark .colon
    resultType
    expectMark .arrow
  return found.isSome

/-- What comes behind parentheses that have been read: an arrow function goes on here if it may begin
where they do. Otherwise they are the arguments of a call of `async`, or hold an expression. -/
def afterContents (c : Context) (atStart isAsync : Bool) (seen : ContentsRead) : Parser Shape := do
  let branch ← if c.inBranch && (← atMark .colon) then attempt (branchArrow c seen) else pure none
  match branch with
  | some shape => return shape
  | none =>
    let typed ← if c.colonAhead then pure false else atResultType
    if seen.typed || typed || (← atMark .arrow) then
      guardThat atStart
      arrowRest c seen typed
    else
      guardThat (isAsync || (0 < seen.count && !seen.spread))
      return .other

def functionValue (c : Context) : Parser Shape :=
  node .functionValue do
    let _ ← eatName "async"
    functionFrom c false
    return .other

def classValue (c : Context) : Parser Shape :=
  node .classValue do
    classFrom c false
    return .other

/-- An operand that begins with a name: the name itself, or an arrow function. -/
def nameOperand (c : Context) (atStart : Bool) : Parser Shape := do
  let text ← expectWord fun l => l matches .name _ || l = .keyword .let_
  if atStart && text = "async" && (← headIs Lexeme.isFreeName) then
    wrap .arrow do
      advance
      expectMark .arrow
      let _ ← arrowBody c
    return .arrow
  else if atStart && !(← afterBreak) && (← atMark .arrow) then
    wrap .arrow do
      advance
      let _ ← arrowBody c
    return .arrow
  else return .name text

/-- An operand that begins with `async`. -/
def asyncOperand (c : Context) (atStart : Bool) : Parser Shape := do
  if (← secondIs (· = .keyword .function)) && !(← breakInside) then functionValue c
  else
    let generic ←
      if atStart && (← secondIs (· = .mark openAngle)) then attempt (genericAsyncArrow c) else pure none
    match generic with
    | some shape => return shape
    | none =>
      if atStart && (← secondIs (· = .mark .parenL)) then
        advance
        let seen ← wrap .call (contents c)
        afterContents c true true seen
      else nameOperand c atStart

/-- An operand without calls and accesses. -/
def simpleOperand (c : Context) (atStart : Bool) : Parser Shape := do
  let next ← nextLexeme
  match next with
  | some (.number _) | some (.text _) | some (.regex _) | some (.keyword .this_) | some (.keyword .null_)
  | some (.keyword .true_) | some (.keyword .false_) =>
    advance
    return .other
  | some (.mark .bracketL) => array c
  | some (.mark .braceL) => object c
  | some (.mark .parenL) =>
    let seen ← node .parenthesized (contents c)
    afterContents c atStart false seen
  | some (.mark .backtick) =>
    node .template (templateParts c)
    return .other
  | some (.keyword .function) => functionValue c
  | some (.keyword .class_) => classValue c
  | some (.name "async") => asyncOperand c atStart
  | _ => nameOperand c atStart

/-- A generic call, or a template behind types. -/
def genericCall (c : Context) (calls : Bool) : Parser Unit :=
  wrap .call do
    typeArguments
    if ← atMark .backtick then templateParts c
    else
      guardThat calls
      arguments c

/-- The member in brackets that comes next. -/
def bracketAccess (c : Context) : Parser Unit := do
  expectMark .bracketL
  let _ ← expression c.enclosed
  expectMark .bracketR

/-- A call or an access behind a question mark and a dot. -/
def optionalAccess (c : Context) : Parser Unit := do
  expectMark .question
  expectMark .dot
  if ← atMark .bracketL then bracketAccess c
  else if ← atMark .parenL then arguments c
  else memberWord

/-- One call or access behind an operand, if one comes next. What `new` is applied to is not called, and
has no optional accesses. -/
def accessStep (c : Context) (calls : Bool) : Parser (Option Shape) := do
  let done ← if ← atMark openAngle then attempt (genericCall c calls) else pure none
  if done.isSome then return some .other
  if (← atMark .bang) && !(← afterBreak) then
    wrap .assertion advance
    return some .other
  if ← nextTwo (fun a => a.lexeme = .mark .question) fun b => b.lexeme = .mark .dot then
    guardThat calls
    wrap .access (optionalAccess c)
    return some .other
  if ← atMark .bracketL then
    wrap .access (bracketAccess c)
    return some .other
  if calls && (← atMark .parenL) then
    wrap .call (arguments c)
    return some .other
  if ← atMark .dot then
    wrap .access do
      advance
      memberWord
    return some .other
  if ← atMark .backtick then
    wrap .template (templateParts c)
    return some .other
  return none

/-- The calls and accesses behind an operand. -/
def accesses (c : Context) (calls : Bool) (shape : Shape) : Parser Shape :=
  match shape with
  | .arrow => return .arrow
  | shape => iterate shape fun _ => accessStep c calls

/-- The superclass, which is called or whose members are used. -/
def superOperand (c : Context) (calls : Bool) : Parser Shape := do
  expectKeyword .super_
  if calls && (← atMark .parenL) then superCall (arguments c)
  else
    guardThat (← headIs fun l => l = .mark .dot || l = .mark .bracketL || l = .mark .question)
  return .other

/-- A module loaded while the script runs, or what a module knows of itself. -/
def importOperand (c : Context) : Parser Shape := do
  expectKeyword .import_
  if ← atMark .dot then
    wrap .access do
      advance
      expectName "meta"
  else wrap .call (arguments c)
  return .other

/-- An object made by `new`. The answer is whether arguments were given. -/
def construction (c : Context) : Parser Bool :=
  node .construction do
    expectKeyword .new_
    if ← eatMark .dot then
      expectName "target"
      return true
    constructed c
    let _ ← if ← atMark openAngle then attempt (do
        typeArguments
        guardThat (← atMark .parenL)) else pure none
    if ← atMark .parenL then
      arguments c
      return true
    else return false

/-- What `new` is applied to. -/
def constructedRule (c : Context) : Parser Unit := do
  if ← atKeyword .new_ then
    let given ← construction c
    if given then
      let _ ← accesses c false .other
  else if ← atKeyword .super_ then
    let _ ← accesses c false (← superOperand c false)
  else
    let _ ← accesses c false (← simpleOperand c false)

/-- An operand with its calls and accesses. -/
def chainRule (c : Context) (atStart : Bool) : Parser Shape := do
  if ← atKeyword .super_ then accesses c true (← superOperand c true)
  else if ← atKeyword .import_ then accesses c true (← importOperand c)
  else if ← atKeyword .new_ then
    if ← construction c then accesses c true .other else return .other
  else accesses c true (← simpleOperand c atStart)

end ModuleBundler.Script.Grammar
