import ModuleBundler.Script.Grammar.Operands

namespace ModuleBundler.Script.Grammar

open Script.Parser

/-- Whether the lexeme is an operator that stands before its operand and leaves it as it is. -/
def isSignOperator : Lexeme → Bool
  | .keyword k => k = .delete || k = .void_ || k = .typeof
  | .mark m => m = .binary .plus || m = .binary .minus || m = .tilde || m = .bang
  | _ => false

def isStepOperator (l : Lexeme) : Bool := l = .mark .increment || l = .mark .decrement

/-- An operand with the operators that take one operand. What such an operator is applied to may be
missing. -/
def operandRule (c : Context) (atStart : Bool) : Parser Shape := do
  if ← atMark openAngle then
    node .assertion do
      advance
      if ← eatKeyword .const_ then return () else type
      expectMark closeAngle
      let _ ← operand c
    return .other
  else if ← headIs isStepOperator then
    node .update do
      advance
      let _ ← operand c
    return .operation
  else if ← headIs isSignOperator then
    node .unary do
      advance
      let _ ← attempt (operand c)
    return .unary
  else if ← atKeyword .await then
    node .unary do
      advance
      let _ ← operand c
    return .other
  else
    let shape ← chainRule c atStart
    if shape ≠ .arrow && !(← afterBreak) && (← headIs isStepOperator) then
      wrap .update advance
      return .operation
    else return shape

/-- Stands for the left operand of an operator that has none. -/
def missingOperand (c : Context) : Parser Shape := do
  let op ← operatorAbove? c 0
  guardThat (op.isSome && op ≠ some (.binary .lt))
  node .binary (return ())
  return .other

/-- Operands joined by operators. An arrow function cannot be the left operand. -/
def operationRule (c : Context) (atStart : Bool) : Parser Shape := do
  let left ← orElse (operandRule c atStart) (missingOperand c)
  if left = .arrow then return .arrow else operators c 0 left

/-- `yield`, with what it gives away. -/
def yieldExpression (c : Context) : Parser Shape :=
  node .unary do
    expectKeyword .yield
    let ended ← atStatementEnd
    let empty ← headIs fun l =>
      [Mark.parenR, .bracketR, .colon, .comma, .question].any (fun m => l = .mark m) ||
        l = .keyword .in_ || l = .keyword .instanceof || l = .name "of"
    if ended || empty then return .other
    let _ ← eatMark (.binary .times)
    let _ ← assignment c
    return .other

/-- A conditional expression, or what could be its condition. -/
def conditional (c : Context) : Parser Shape := do
  let shape ← operationRule c true
  if shape ≠ .arrow && (← atMark .question) then branches c else return shape

/-- An expression without commas that is not generic. -/
def plainAssignment (c : Context) : Parser Shape := do
  if c.generator && (← atKeyword .yield) then yieldExpression c
  else
    let shape ← conditional c
    match shape with
    | .arrow | .unary | .operation => return shape
    | _ => assignmentAfter c shape

def genericArrow (c : Context) : Parser Shape :=
  node .arrow do
    typeParameters
    guardThat ((← plainAssignment { c with colonAhead := false }) = .arrow)
    return .arrow

/-- An expression without commas. -/
def assignmentRule (c : Context) : Parser Shape := do
  let generic ←
    if ← nextTwo (fun a => a.lexeme = .mark openAngle) fun b => b.lexeme.isWord then
      attempt (genericArrow c)
    else pure none
  match generic with
  | some shape => return shape
  | none => plainAssignment c

/-- Expressions separated by commas. -/
def expressionRule (c : Context) : Parser Shape := do
  let first ← assignment c
  if ← atMark .comma then
    wrap .sequence do
      repeatWhile do
        if ← eatMark .comma then
          let _ ← assignment c
          return true
        else return false
    return .operation
  else return first

end ModuleBundler.Script.Grammar
