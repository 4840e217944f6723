import ModuleBundler.Script.Grammar.Declarations

namespace ModuleBundler.Script.Grammar

open Script.Parser

/-- An expression in parentheses, as in the head of a statement. -/
def parenthesized (c : Context) : Parser Unit :=
  node .parenthesized do
    expectMark .parenL
    let _ ← expression c.block
    expectMark .parenR

/-- A jump to a label or out of what surrounds it. -/
def jump : Parser Unit := do
  advance
  if ← eatStatementEnd then return ()
  expect fun l => l matches .name _ || l = .keyword .let_
  expectStatementEnd

def doStatement (c : Context) : Parser Unit := do
  expectKeyword .do_
  statement c false
  expectKeyword .while_
  parenthesized c
  let _ ← eatStatementEnd

def ifStatement (c : Context) : Parser Unit := do
  expectKeyword .if_
  parenthesized c
  statement c false
  if ← eatKeyword .else_ then statement c false

def returnStatement (c : Context) : Parser Unit := do
  expectKeyword .return_
  if ← eatStatementEnd then return ()
  let _ ← expression c.block
  expectStatementEnd

def throwStatement (c : Context) : Parser Unit := do
  expectKeyword .throw_
  guardThat !(← afterBreak)
  let _ ← expression c.block
  expectStatementEnd

/-- The condition and the step of a loop that counts. -/
def countingHead (c : Context) : Parser Unit := do
  expectMark .semicolon
  if !(← atMark .semicolon) then
    let _ ← expression c
  expectMark .semicolon
  if !(← atMark .parenR) then
    let _ ← expression c

/-- Whether a loop goes through a collection, from behind its variable on. -/
def atCollection : Parser Bool := headIs fun l => l = .name "of" || l = .keyword .in_

/-- The collection that a loop goes through. -/
def collectionHead (c : Context) : Parser Unit := do
  if ← eatName "of" then
    let _ ← assignment c
  else
    expectKeyword .in_
    let _ ← expression c

/-- The declaration that the head of a loop begins with. It may lack its variable. -/
def loopVariables (c : Context) : Parser Unit := do
  let bare ← ahead do
    advance
    collectionHead c
    expectMark .parenR
  if bare.isSome then advance else variableDeclaration { c with noIn := true } true

/-- The head of a loop. The answer is whether the loop goes through a collection. -/
def forHead (c : Context) : Parser Bool := do
  if ← atMark .semicolon then
    countingHead c
    return false
  if (← headIs fun l => l = .keyword .const_ || l = .keyword .var_) || (← atLetDeclaration) then loopVariables c
  else
    let shape ← expression { c with noIn := true }
    if ← atCollection then guardThat shape.isTarget
  if ← atCollection then
    collectionHead c
    return true
  countingHead c
  return false

def forStatement (c : Context) : Parser Unit := do
  expectKeyword .for_
  let awaits ← eatKeyword .await
  expectMark .parenL
  let collection ← forHead c.block
  guardThat (collection || !awaits)
  expectMark .parenR
  statement c false

/-- The statements of one case. -/
def caseBody (c : Context) : Parser Unit := do
  expectMark .colon
  repeatWhile do
    if ← headIs fun l => l = .keyword .case_ || l = .keyword .default_ || l = .mark .braceR then return false
    statement c.block true
    return true

/-- One more case, where `seen` tells whether there has been a default one. There is at most one. -/
def caseStep (c : Context) (seen : Bool) : Parser (Option Bool) := do
  if ← eatKeyword .case_ then
    let _ ← expression c.block
    caseBody c
    return some seen
  if ← eatKeyword .default_ then
    guardThat !seen
    caseBody c
    return some true
  return none

def switchStatement (c : Context) : Parser Unit := do
  expectKeyword .switch_
  parenthesized c
  expectMark .braceL
  let _ ← iterate false (caseStep c)
  expectMark .braceR

def catchClause (c : Context) : Parser Unit := do
  if ← eatKeyword .catch_ then
    if ← eatMark .parenL then
      let _ ← pattern c.block
      annotation
      expectMark .parenR
    block c

def finallyClause (c : Context) : Parser Unit := do
  if ← eatKeyword .finally_ then block c

def tryStatement (c : Context) : Parser Unit := do
  expectKeyword .try_
  block c
  catchClause c
  finallyClause c

/-- What comes behind an expression that begins a statement. A name may turn out to be a label, or to
begin a declaration. -/
def afterExpression (c : Context) (shape : Shape) : Parser Unit := do
  match shape with
  | .name text =>
    if ← eatMark .colon then
      if ← atKeyword .function then functionDeclaration c else statement c false
    else if text = "interface" && (← afterBreak) then
      let _ ← eatStatementEnd
    else if text = "declare" then
      if ← ambientDeclaration c then return () else endExpression
    else if text = "global" && (← atMark .braceL) then namespaceBody c
    else if ← atNamedDeclaration text then namedDeclaration c text
    else endExpression
  | _ => endExpression
where
  /-- Ends a statement, or goes on with an operator where the expression seemed complete. -/
  endExpression : Parser Unit := do
    if ← eatStatementEnd then return ()
    guardThat (← atMarkOperator)
    let _ ← operators c.block 0 shape

def expressionStatement (c : Context) : Parser Unit := do
  let shape ← expression c.block
  afterExpression c shape

/-- A statement that begins with `import` calls it. -/
def importStatement (c : Context) : Parser Unit := do
  let _ ← expression c.block
  let _ ← eatStatementEnd

def atImportCall : Parser Bool :=
  nextTwo (fun a => a.lexeme = .keyword .import_) fun b => b.lexeme = .mark .parenL || b.lexeme = .mark .dot

/-- A statement. Variables other than those of `var` are only declared where `declaring` allows it. -/
def statementRule (c : Context) (declaring : Bool) : Parser Unit :=
  node .statement do
    if ← atConstantEnum then constantEnum
    else if ← atImportCall then importStatement c
    else
      let next ← nextLexeme
      match next with
      | some (.mark .semicolon) => advance
      | some (.mark .braceL) => block c
      | some (.keyword .break_) | some (.keyword .continue_) => jump
      | some (.keyword .debugger) =>
        advance
        expectStatementEnd
      | some (.keyword .do_) => doStatement c
      | some (.keyword .for_) => forStatement c
      | some (.keyword .function) => functionDeclaration c
      | some (.keyword .class_) => classFrom c true
      | some (.keyword .if_) => ifStatement c
      | some (.keyword .return_) => returnStatement c
      | some (.keyword .switch_) => switchStatement c
      | some (.keyword .throw_) => throwStatement c
      | some (.keyword .try_) => tryStatement c
      | some (.keyword .catch_) =>
        catchClause c
        finallyClause c
      | some (.keyword .finally_) => finallyClause c
      | some (.keyword .with_) | some (.keyword .while_) =>
        advance
        parenthesized c
        statement c false
      | some (.keyword .var_) => variableDeclaration c false
      | some (.keyword .const_) =>
        guardThat declaring
        variableDeclaration c false
      | some (.keyword .let_) =>
        if declaring && (← atLetDeclaration) then variableDeclaration c false else expressionStatement c
      | some (.keyword .export_) => fail
      | some _ => if ← atAsyncFunction then functionDeclaration c else expressionStatement c
      | none => fail

end ModuleBundler.Script.Grammar
