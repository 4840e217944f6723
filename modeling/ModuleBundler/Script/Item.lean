import ModuleBundler.Script.Tree

namespace ModuleBundler.Script

/-- One of the things that an import takes from a module. -/
inductive Specifier
  /-- What the module exports by default. -/
  | byDefault (binding : String)
  | everything (binding : String)
  | named (imported binding : String)
  deriving DecidableEq, Repr

inductive ItemKind
  | statement
  | importing (specifiers : List Specifier) (source : String)
  /-- An export of what another module exports. -/
  | reexporting (source : String)
  /-- An export of all that another module exports, under one name. Its semicolon is no part of it. -/
  | reexportingAs (source : String)
  /-- An export of names that the module itself declares elsewhere. -/
  | exportList
  | exportedDeclaration
  | exportedDefault
  /-- An exported enumeration of constants. Its keyword is no part of the declaration. -/
  | exportedConstants
  /-- An import or export with an equals sign, or the name of a whole module. -/
  | aliasing
  deriving DecidableEq, Repr

structure Item where
  kind : ItemKind
  tree : Tree
  deriving Repr

namespace ItemKind

/-- The module that the item depends on. -/
def source? : ItemKind → Option String
  | importing _ source | reexporting source | reexportingAs source => some source
  | _ => none

/-- Whether nothing of the item makes sense in a script. -/
def isWiring : ItemKind → Bool
  | importing .. | reexporting _ | reexportingAs _ | exportList => true
  | _ => false

end ItemKind

namespace Item

/-- Where the item begins in the source. -/
def start (item : Item) : Nat := item.tree.start

/-- The end of the last of these tokens that is no semicolon. -/
def stopBeforeSemicolon (tokens : List Token) : Nat :=
  match (tokens.filter fun token => token.lexeme ≠ .mark .semicolon).getLast? with
  | some token => token.stop
  | none => 0

/-- Where the item ends in the source. -/
def stop (item : Item) : Nat :=
  match item.kind with
  | .reexportingAs _ => stopBeforeSemicolon item.tree.leaves
  | _ => item.tree.stop

end Item

end ModuleBundler.Script
