import ModuleBundler.KeyedList
import ModuleBundler.ModuleSource
import ModuleBundler.Scan
import ModuleBundler.Text.Quoted
import ModuleBundler.Work

namespace ModuleBundler

structure Asset where
  name : String
  content : String
  deriving DecidableEq, Repr

/-- Assets with different names. -/
abbrev Assets := KeyedList Asset.name

namespace Assets

/-- The name of the asset in a file: the name of the file without the extension that it was found by. -/
def nameOf (extensions : List String) (file : SourceFile) : String :=
  match extensions.find? fun extension => extension.toList.isSuffixOf file.fileName.toList with
  | some extension => String.ofList (file.fileName.toList.take (file.fileName.length - extension.length))
  | none => file.stem

/-- Reads the assets in files. If two of them have one name, the content of the later one stays. -/
def read (extensions : List String) (assets : Assets) : List SourceFile → Work Assets
  | [] => pure assets
  | file :: files => do
    let content ← Work.readText .readAsset file.location
    let name := nameOf extensions file
    if (assets.get? name).isSome then Noted.note (.assetReplaced name file.relativePath)
    read extensions (assets.put ⟨name, content⟩) files

/-- Loads the assets of a directory. -/
def load (path base : String) (extensions : List String) : Work Assets := do
  let files ← Work.ofAttempt fun files => Scan.run ⟨base, extensions, []⟩ files path
  read extensions .empty files

/-- Whether an import that binds `binding` to what comes from `source` is one of the asset. -/
def isImported (o : Options) (binding source : String) (asset : Asset) : Bool :=
  binding = asset.name ++ o.assetSuffix &&
    o.assetExtensions.any fun extension => (asset.name ++ extension).toList.isSuffixOf source.toList

/-- The asset that an item of a module imports, and what it binds the asset to. -/
def imported? (o : Options) (assets : Assets) (item : Script.Item) : Option (String × Asset) :=
  match item.kind with
  | .importing [.byDefault binding] source =>
    if ['.', '/'].isPrefixOf source.toList then
      (assets.toList.find? (isImported o binding source)).map fun asset => (binding, asset)
    else none
  | _ => none

/-- The declaration of a constant that holds a text. -/
def declaration (binding content : String) : List Char :=
  "const ".toList ++ binding.toList ++ " = ".toList ++ Text.quote content.toList ++ [';']

/-- The end of an item with the semicolon that may follow it directly. -/
def stopOf (text : List Char) (item : Script.Item) : Nat :=
  if text[item.stop]? = some ';' then item.stop + 1 else item.stop

/-- The edits that put the assets into a module. -/
def edits (o : Options) (assets : Assets) (m : Script.Module) : List Text.Edit :=
  m.items.filterMap fun item =>
    (imported? o assets item).map fun (binding, asset) =>
      ⟨⟨item.start, stopOf m.text item⟩, declaration binding asset.content⟩

/-- What is reported when the assets are put into a module by the name `name`. -/
def events (o : Options) (assets : Assets) (name : String) (m : Script.Module) : List Event :=
  (m.items.filterMap (imported? o assets)).map fun (binding, _) => .embedded binding name

/-- The source of a module with its assets embedded, if it imports any. -/
def embed (o : Options) (assets : Assets) (name source : String) : Attempt (Option String) := do
  if assets.toList.isEmpty then return none
  let m ← parseModule name source
  let edits := edits o assets m
  let found : Noted (Option String) :=
    ⟨if edits.isEmpty then none else some (String.ofList (Text.Edit.applyAll edits m.text)), events o assets name m⟩
  found

/-- Embeds the assets in module files, and gives the number of files that change. -/
def embedIn (o : Options) (assets : Assets) : List SourceFile → Work Nat
  | [] => pure 0
  | file :: files => do
    let source ← Work.readText .readModule file.location
    match ← (embed o assets file.relativePath source : Attempt _) with
    | some changed =>
      Work.writeText .writeModule file.location changed
      return (← embedIn o assets files) + 1
    | none => embedIn o assets files

end Assets

end ModuleBundler
