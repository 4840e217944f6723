import ModuleBundler.Failure
import ModuleBundler.Graph
import ModuleBundler.Script.Plain

namespace ModuleBundler

/-- Parses a module. -/
def parseModule (name source : String) : Attempt Script.Module :=
  match Script.Module.parse? source.toList with
  | some m => pure m
  | none => .fail (.unparsable name)

/-- The text of a module without module syntax. -/
def plainText (name source : String) : Attempt String := do
  let m ← parseModule name source
  m.plain name

/-- What a module imports. -/
def importsOf (name source : String) : Attempt (List String) := do
  return (← parseModule name source).sources

/-- The node of a module. -/
def ModuleNode.ofSource (file : SourceFile) (source : String) : Attempt ModuleNode := do
  return ⟨file, ← importsOf file.relativePath source, source⟩

end ModuleBundler
