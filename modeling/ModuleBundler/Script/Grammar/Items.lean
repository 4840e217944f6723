import ModuleBundler.Script.Grammar.Statements

namespace ModuleBundler.Script.Grammar

open Script.Parser

/-- One name in the braces of an import. A reserved word needs another name. -/
def importedName : Parser Specifier := do
  let next ← nextLexeme
  let imported ← anyWord
  if ← eatName "as" then
    let binding ← bindingName
    return .named imported binding
  else
    guardThat (next.any Lexeme.isFreeName)
    return .named imported imported

/-- One more name in the braces of an import. The names read so far come with whether a comma is due. -/
def importedNameStep (seen : List Specifier × Bool) : Parser (Option (List Specifier × Bool)) := do
  if ← atMark .braceR then return none
  if seen.2 then
    expectMark .comma
    return some (seen.1, false)
  return some (seen.1 ++ [← importedName], true)

def importedNames : Parser (List Specifier) := do
  expectMark .braceL
  let seen ← iterate ([], false) importedNameStep
  expectMark .braceR
  return seen.1

/-- What an import takes besides the default: everything, or names in braces, or nothing. -/
def furtherSpecifiers : Parser (List Specifier) := do
  if ← eatMark (.binary .times) then
    expectName "as"
    let binding ← bindingName
    return [.everything binding]
  else if ← atMark .braceL then importedNames
  else return []

/-- The module that an item depends on, and the end of the item. -/
def sourceClause : Parser String := do
  expectName "from"
  let source ← expectText
  expectStatementEnd
  return source

/-- What an alias stands for: a module, or a name in a namespace. -/
def aliasTarget : Parser Unit := do
  if ← nextTwo (fun a => a.lexeme = .name "require") fun b => b.lexeme = .mark .parenL then
    advance
    advance
    let _ ← expectText
    expectMark .parenR
  else qualifiedName

def aliasDeclaration : Parser ItemKind := do
  expectMark (.assign .plain)
  aliasTarget
  expectStatementEnd
  return .aliasing

/-- An import from behind the name it begins with on. -/
def importAfterDefault (binding : String) : Parser ItemKind := do
  if ← atMark (.assign .plain) then aliasDeclaration
  else
    if !(← atName "from") then expectMark .comma
    let further ← furtherSpecifiers
    return .importing (.byDefault binding :: further) (← sourceClause)

/-- Whether `type` is a word of its own in an import, since another name, a star or a brace follows. -/
def atTypeOnlyImport : Parser Bool := do
  if !(← atName "type") then return false
  if ← secondIs (· = .name "from") then thirdIs fun l => l = .name "from" || l = .mark (.assign .plain)
  else secondIs fun l => l = .mark .braceL || l = .mark (.binary .times) || l.isWord

def importDeclaration : Parser ItemKind := do
  expectKeyword .import_
  if ← headIs fun l => (l matches .text _) then
    let source ← expectText
    expectStatementEnd
    return .importing [] source
  if ← atTypeOnlyImport then advance
  if ← headIs Lexeme.isFreeName then importAfterDefault (← bindingName)
  else
    let specifiers ← furtherSpecifiers
    return .importing specifiers (← sourceClause)

/-- The names in the braces of an export, each with the name that it goes by outside. -/
def exportedNames : Parser Unit := do
  expectMark .braceL
  commaList .braceR do
    let _ ← anyWord
    if ← eatName "as" then
      let _ ← anyWord
  return ()

/-- An export that declares nothing, from behind its first words on. -/
def exportClause : Parser ItemKind := do
  if ← eatMark (.binary .times) then
    if ← eatName "as" then
      let _ ← anyWord
      return .reexportingAs (← sourceClause)
    return .reexporting (← sourceClause)
  else
    exportedNames
    if ← atName "from" then return .reexporting (← sourceClause)
    let _ ← eatStatementEnd
    return .exportList

/-- What a module exports by default: a declaration or an expression. -/
def exportDefault (c : Context) : Parser ItemKind := do
  expectKeyword .default_
  if ← nextTwo (fun a => a.lexeme = .name "abstract") fun b => b.lexeme = .keyword .class_ then
    advance
    classFrom c false
  else if ← eatName "interface" then interfaceRest
  else if ← atKeyword .class_ then classFrom c false
  else if ← atKeyword .function then functionFrom c false
  else if ← atAsyncFunction then
    advance
    functionFrom c false
  else
    let _ ← assignment c
    expectStatementEnd
  return .exportedDefault

/-- An export of a declaration that begins with a name, or nothing. -/
def exportedNamedDeclaration (c : Context) : Parser (Option Unit) := do
  let word ← nextWord
  match word with
  | some word => if declaringNames.contains word then attempt (do advance; namedDeclaration c word) else return none
  | none => return none

/-- An export of something that the module declares, or of names. -/
def exportOther (c : Context) : Parser ItemKind := do
  if ← eatName "type" then exportClause
  else if ← atKeyword .default_ then exportDefault c
  else if ← atKeyword .class_ then
    classFrom c true
    return .exportedDeclaration
  else if ← headIs fun l => l = .keyword .function || l = .name "async" then
    guardThat ((← atKeyword .function) || (← atAsyncFunction))
    functionDeclaration c
    return .exportedDeclaration
  else if ← atConstantEnum then
    constantEnum
    return .exportedConstants
  else if (← headIs fun l => l = .keyword .const_ || l = .keyword .var_) || (← atLetDeclaration) then
    variableDeclaration c false
    return .exportedDeclaration
  else exportClause

/-- An export with an equals sign or of a whole module. -/
def exportAlias? (c : Context) : Parser (Option ItemKind) := do
  if ← eatKeyword .import_ then
    let _ ← anyWord
    return some (← aliasDeclaration)
  if ← eatMark (.assign .plain) then
    let _ ← expression c
    expectStatementEnd
    return some .aliasing
  if ← eatName "as" then
    expectName "namespace"
    expect fun l => l matches .name _
    expectStatementEnd
    return some .aliasing
  return none

def exportDeclaration (c : Context) : Parser ItemKind := do
  expectKeyword .export_
  let declared ← if ← eatName "declare" then ambientDeclaration c else pure false
  if declared then return .exportedDeclaration
  let named ← exportedNamedDeclaration c
  if named.isSome then return .exportedDeclaration
  match ← exportAlias? c with
  | some kind => return kind
  | none => exportOther c

/-- One item of a module or a namespace. -/
def itemRule (c : Context) : Parser ItemKind :=
  node .item do
    if ← atKeyword .export_ then exportDeclaration c
    else if (← atKeyword .import_) && !(← atImportCall) then importDeclaration
    else
      statement c true
      return .statement

end ModuleBundler.Script.Grammar
