import ModuleBundler.Script.Grammar.Expressions

namespace ModuleBundler.Script.Grammar

open Script.Parser

/-- One variable or pattern, with its type and its value. A pattern that `let` or `var` declares needs a
value, unless a loop gives it one. -/
def declarator (c : Context) (constant inLoop : Bool) : Parser Unit :=
  node .declarator do
    let isName ← pattern c
    if isName then
      let _ ← eatMark .bang
    annotation
    if inLoop && (← headIs fun l => l = .name "of" || l = .keyword .in_) then return ()
    if ← eatMark (.assign .plain) then
      let _ ← assignment c
    else guardThat (isName || c.ambient || (constant && !inLoop))

/-- Variables separated by commas. The last one may be missing before the end of the statement. -/
def declarators (c : Context) (constant inLoop : Bool) : Parser Unit :=
  repeatWhile do
    if (← atMark .semicolon) || (← atEnd) then return false
    declarator c constant inLoop
    eatMark .comma

/-- Passes over what stands between a declaration and the end of its statement. -/
def skipToStatementEnd (c : Context) : Parser Unit := do
  let _ ← attempt (expression c.withIn)
  repeatWhile do
    if ← eatStatementEnd then return false
    advance
    return true

/-- A declaration of variables in the head of a loop, or as a statement. -/
def variableDeclaration (c : Context) (inLoop : Bool) : Parser Unit :=
  node .variableDeclaration do
    let constant ← atKeyword .const_
    let plain ← atKeyword .var_
    advance
    declarators (if plain && inLoop then c else c.withIn) constant inLoop
    if !inLoop then
      if ← eatStatementEnd then return ()
      skipToStatementEnd c

/-- Whether `let` comes next and declares something. -/
def atLetDeclaration : Parser Bool :=
  nextTwo (fun a => a.lexeme = .keyword .let_) fun b =>
    b.lexeme matches .name _ || b.lexeme = .mark .braceL || b.lexeme = .mark .bracketL ||
      [Keyword.let_, .yield, .await].any fun k => b.lexeme = .keyword k

/-- A name for a type, from behind its keyword on. -/
def aliasRest : Parser Unit := do
  let _ ← anyWord
  typeParametersIfAny
  expectMark (.assign .plain)
  type
  expectStatementEnd

def interfaceRest : Parser Unit := do
  let _ ← anyWord
  typeParametersIfAny
  if ← eatKeyword .extends_ then heritage
  if ← atKeyword .extends_ then
    repeatWhile do
      if ← atMark .braceL then return false
      advance
      return true
  typeMembers

def enumMember : Parser Unit :=
  node .member do
    if ← eatMark .bracketL then
      let _ ← expression {}
      expectMark .bracketR
    else expect fun l => l.isWord || l matches .text _ || l matches .number _
    initializer {}

/-- An enumeration, from behind its keyword on. -/
def enumRest : Parser Unit := do
  let _ ← anyWord
  expectMark .braceL
  commaList .braceR enumMember

/-- The items of a namespace in braces. They may import and export like those of a module. -/
def namespaceBody (c : Context) : Parser Unit :=
  node .block do
    expectMark .braceL
    repeatWhile do
      if ← atMark .braceR then return false
      let _ ← item c.block
      return true
    expectMark .braceR

/-- A namespace from behind its keyword on. Its name may have several parts. -/
def namespaceRest (c : Context) : Parser Unit := do
  repeatWhile do
    let _ ← anyWord
    eatMark .dot
  namespaceBody c

/-- What is known of another module or of the global names. The braces may be left out. -/
def outsideRest (c : Context) : Parser Unit := do
  expect fun l => l = .name "global" || l matches .text _
  if ← atMark .braceL then namespaceBody c else expectStatementEnd

/-- The words that begin a declaration if the right thing follows, and are names otherwise. -/
def declaringNames : List String := ["abstract", "enum", "interface", "module", "namespace", "type"]

/-- A declaration from behind the name that begins it on. -/
def namedDeclaration (c : Context) (word : String) : Parser Unit := do
  match word with
  | "abstract" => classFrom c true
  | "enum" => enumRest
  | "interface" => interfaceRest
  | "module" => if ← headIs fun l => (l matches .text _) then outsideRest c else namespaceRest c
  | "namespace" => namespaceRest c
  | "type" => aliasRest
  | _ => fail

/-- Whether what comes next makes a declaration of the name that has been read. -/
def atNamedDeclaration (word : String) : Parser Bool := do
  let broken ← afterBreak
  headIs fun l =>
    match word with
    | "abstract" => l = .keyword .class_ && !broken
    | "enum" | "interface" | "namespace" => l.isFreeName
    | "module" => l.isFreeName || (l matches .text _)
    | "type" => l.isFreeName && !broken
    | _ => false

def functionDeclaration (c : Context) : Parser Unit :=
  node .function do
    let _ ← eatName "async"
    functionFrom c true

/-- Whether an asynchronous function comes next. -/
def atAsyncFunction : Parser Bool :=
  nextTwo (fun a => a.lexeme = .name "async") fun b => b.lexeme = .keyword .function && !b.afterBreak

def atConstantEnum : Parser Bool :=
  nextTwo (fun a => a.lexeme = .keyword .const_) fun b => b.lexeme = .name "enum"

def constantEnum : Parser Unit := do
  expectKeyword .const_
  expectName "enum"
  enumRest

/-- A declaration of what exists elsewhere, from behind `declare` on. The answer is whether there is
one. -/
def ambientDeclaration (c : Context) : Parser Bool := do
  let c := { c with ambient := true }
  if ← atKeyword .function then
    functionDeclaration c
    return true
  if ← atKeyword .class_ then
    classFrom c true
    return true
  if ← atConstantEnum then
    constantEnum
    return true
  if ← headIs fun l => l = .keyword .const_ || l = .keyword .var_ || l = .keyword .let_ then
    variableDeclaration c false
    return true
  if ← atName "global" then
    outsideRest c
    return true
  let word ← nextWord
  match word with
  | some word =>
    if declaringNames.contains word then
      advance
      namedDeclaration c word
      return true
    else return false
  | none => return false

end ModuleBundler.Script.Grammar
