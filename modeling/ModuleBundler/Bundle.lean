import ModuleBundler.ModuleSource

namespace ModuleBundler

/-- The text of a module in a bundle. -/
structure Fragment where
  path : String
  text : String
  deriving DecidableEq, Repr

structure Bundle where
  fragments : List Fragment := []
  entry : Option String := none
  deriving DecidableEq, Repr

/-- The line above the text of a module. -/
def provenance (path : String) : String := "// === " ++ path ++ " ==="

/-- The line above the text of the entry module. -/
def entryMark : String := provenance "Main Entry Point"

/-- A fragment as it stands in the text of a bundle. -/
def Fragment.block (fragment : Fragment) : String := provenance fragment.path ++ "\n" ++ fragment.text ++ "\n\n"

namespace Bundle

/-- The text of a bundle. -/
def text (bundle : Bundle) : String :=
  String.join (bundle.fragments.map Fragment.block) ++
    match bundle.entry with
    | some entry => entryMark ++ "\n" ++ entry
    | none => ""

/-- Adds a module at the end, unless nothing is left of it. -/
def addModule (bundle : Bundle) (path source : String) : Attempt Bundle := do
  let text ← plainText path source
  if text.isEmpty then
    Noted.note (.emptyModule path)
    return bundle
  else return { bundle with fragments := bundle.fragments ++ [⟨path, text⟩] }

/-- Adds modules in their order. -/
def addModules (bundle : Bundle) : List ModuleNode → Attempt Bundle
  | [] => pure bundle
  | node :: nodes => do (← bundle.addModule node.key node.content).addModules nodes

/-- Makes a module the entry module. -/
def setEntry (bundle : Bundle) (path source : String) : Attempt Bundle := do
  return { bundle with entry := some (← plainText path source) }

end Bundle

end ModuleBundler
