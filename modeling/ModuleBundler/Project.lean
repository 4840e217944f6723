import ModuleBundler.Assets
import ModuleBundler.Bundle
import ModuleBundler.Graph.Outline

/-!
Projects: from files to a bundle.

The steps of `bundle` follow each other strictly, since embedding changes the files that the graph is read from.
-/

namespace ModuleBundler

/-- What is known of a bundle that has been made. -/
structure Report where
  assets : Nat
  /-- Number of module files in which assets were embedded. -/
  embedded : Nat
  modules : Nat
  fragments : Nat
  /-- Where the bundle was written to. -/
  output : String
  deriving DecidableEq, Repr

namespace Project

/-- The name of the file with the options of a project. -/
def configName : String := "sketchpack.json"

/-- Reads options from a file. -/
def loadOptions (path : String) : Work Options :=
  Work.ofAttempt fun files =>
    match files.look path with
    | .error cause => .fail (.file .openConfig path cause)
    | .ok (.file bytes) =>
      match Options.ofText bytes.toList with
      | .ok o => pure o
      | .error cause => .fail (.config path cause)
    | .ok _ => .fail (.unreadableConfig path)

/-- Finds the options of the project in a directory: those of `config` if it is given, or those of the file with
the usual name if it is there. -/
def discover (root : String) (config : Option String) : Work Options := do
  let found ←
    match config with
    | some path => loadOptions path
    | none => do
      let path := Path.join root configName
      if ← Work.look (·.isFile path) then
        Noted.note (.usingConfig path)
        loadOptions path
      else pure {}
  return { found with root := Path.join root found.root }

/-- Finds the module files of a project. -/
def scanModules (o : Options) : Work (List SourceFile) :=
  Work.ofAttempt fun files => Scan.run ⟨o.outPath, o.moduleExtensions, o.exclude⟩ files o.outPath

/-- Reads a module. -/
def loadNode (file : SourceFile) : Work ModuleNode := do
  let source ← Work.readText .readModule file.location
  ModuleNode.ofSource file source

/-- Adds the modules in files to a graph, except for the one with the path `entry`. -/
def addTo (g : Graph) (entry : String) : List SourceFile → Work Graph
  | [] => pure g
  | file :: files => do
    if file.relativePath = entry then addTo g entry files
    else
      let node ← loadNode file
      Noted.note (.importsFound node.key node.imports)
      addTo (g.insert node) entry files

/-- The graph of the modules in files. -/
def graphOf (files : List SourceFile) (entry : String) : Work Graph := addTo .empty entry files

/-- The graph of the modules of a project. -/
def loadGraph (o : Options) : Work Graph := do graphOf (← scanModules o) o.entryKey

/-- Adds the entry module to a bundle, if it is there. -/
def addEntry (o : Options) (bundle : Bundle) : Work Bundle := do
  if ← Work.look (·.isFile o.entryPath) then
    let source ← Work.readText .readEntry o.entryPath
    bundle.setEntry o.entryKey source
  else
    Noted.note (.entryMissing o.entryPath)
    return bundle

/-- Writes the text of a bundle to a file. -/
def writeBundle (path : String) (bundle : Bundle) : Work Unit := Work.writeText .writeBundle path bundle.text

/-- Removes what is there of the listed names in a directory. -/
def cleanup (directory : String) : List String → Work Unit
  | [] => pure ()
  | name :: names => do
    let path := Path.join directory name
    if ← Work.look (·.reaches path) then
      Noted.note (.removing path)
      Work.removeTree path
    cleanup directory names

/-- Makes the bundle of a project. -/
def bundle (o : Options) : Work Report := do
  Noted.note (.scanning o.root)
  let assets ← Assets.load o.srcPath o.outPath o.assetExtensions
  let files ← scanModules o
  let embedded ← Assets.embedIn o assets files
  Noted.note (.assetsEmbedded assets.size embedded)
  let g ← graphOf files o.entryKey
  Noted.note (.modulesFound g.size)
  let ordered ← (g.ordered : Noted _)
  Noted.note .orderResolved
  let bundle ← addEntry o (← (Bundle.addModules {} ordered : Attempt _))
  writeBundle o.outputPath bundle
  cleanup o.outPath o.cleanDirs
  Noted.note (.combined ordered.length o.outputPath)
  return ⟨assets.size, embedded, g.size, bundle.fragments.length, o.outputPath⟩

/-- Makes the bundle of a project and reports how much it holds. -/
def build (o : Options) : Work Unit := do
  let report ← bundle o
  Noted.note (.bundled report.fragments report.modules)

/-- Reads the module in a file and gives it without module syntax. -/
def plainFile (path : String) : Work String := do
  let source ← Work.readText .readModule path
  plainText path source

end Project

end ModuleBundler
