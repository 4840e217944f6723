import ModuleBundler.Counting
import ModuleBundler.KeyedList
import ModuleBundler.SourceFile

/-!
The modules of a bundle and what they import.

A graph holds modules by their paths, in the order in which each path came first. What a module imports
is a text that may be written in many ways, so it is matched loosely (`Graph.resolve?`); an edge leads to
the first module that matches.
-/

namespace ModuleBundler

/-- A module in a graph. -/
structure ModuleNode where
  file : SourceFile
  /-- What the module imports, as it is written. -/
  imports : List String
  content : String
  deriving DecidableEq, Repr

/-- The path that the module goes by. -/
def ModuleNode.key (node : ModuleNode) : String := node.file.relativePath

/-- Modules with different paths. -/
structure Graph where
  nodes : KeyedList ModuleNode.key

namespace Graph

def empty : Graph := ⟨.empty⟩

/-- The paths of the modules, in order. -/
def keys (g : Graph) : List String := g.nodes.keys

def size (g : Graph) : Nat := g.nodes.size

def get? (g : Graph) (key : String) : Option ModuleNode := g.nodes.get? key

/-- Adds a module behind the others, or in the place of the one with its path. -/
def insert (g : Graph) (node : ModuleNode) : Graph := ⟨g.nodes.put node⟩

/-- A path without the extension of its last part. -/
def withoutExtension (path : List Char) : List Char :=
  match Text.beforeLast? '/' path with
  | some before => before ++ '/' :: Text.withoutExtension (Text.afterLast '/' path)
  | none => Text.withoutExtension path

/-- Whether what is imported may be the module with this path: the path without its extension stands in
what is imported, or the last part of that stands in the path. -/
def isMatch (specifier key : List Char) : Bool :=
  let part := Text.afterLast '/' specifier
  Text.occursIn (withoutExtension key) specifier || (!part.isEmpty && Text.occursIn part key)

/-- The first module that may be what is imported. -/
def resolve? (g : Graph) (specifier : String) : Option String :=
  g.keys.find? fun key => isMatch specifier.toList key.toList

/-- What the module with this path imports, as it is written. -/
def importsOf (g : Graph) (key : String) : List String :=
  match g.get? key with
  | some node => node.imports
  | none => []

/-- The modules that a module imports, in the order of its imports. -/
def edges (g : Graph) (key : String) : List String := (g.importsOf key).filterMap g.resolve?

/-- What a module imports from outside of the graph. -/
def unresolved (g : Graph) (key : String) : List String :=
  (g.importsOf key).filter fun specifier => (g.resolve? specifier).isNone

/-- The modules that no module imports; all of them if there is no such module. -/
def roots (g : Graph) : List String :=
  let imported := g.keys.flatMap g.edges
  let roots := g.keys.filter fun key => !imported.contains key
  if roots.isEmpty then g.keys else roots

/-- Number of modules that are not on a path through the graph. -/
def away (g : Graph) (path : List String) : Nat := g.keys.countP fun key => !path.contains key

/-- A path that goes on to another module leaves fewer behind. -/
theorem away_cons_lt {g : Graph} {path : List String} {key : String} (known : key ∈ g.keys) (new : key ∉ path) :
    g.away (key :: path) < g.away path := by
  refine countP_lt_countP (fun k off => ?_) ?_ ?_ known
  · simp only [List.contains_eq_mem, List.mem_cons, Bool.not_eq_true', decide_eq_false_iff_not] at off ⊢
    exact fun on => off (Or.inr on)
  · simp
  · simpa using new

end Graph

end ModuleBundler
