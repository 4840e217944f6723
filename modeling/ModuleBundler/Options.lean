import ModuleBundler.Json.Reader
import ModuleBundler.Path

namespace ModuleBundler

structure Options where
  /-- The directory of the project. The other paths begin there. -/
  root : String := "."
  /-- The directory of the assets. -/
  srcDir : String := "src"
  /-- The directory of the modules. Their paths begin there. -/
  outDir : String := "dist"
  /-- The path of the entry module from the directory of the modules. -/
  entry : String := "sketch.js"
  /-- Where the bundle is written to, if not over the entry module. -/
  output : Option String := none
  /-- What the names of modules end in. -/
  moduleExtensions : List String := [".js"]
  /-- What the names of assets end in. -/
  assetExtensions : List String := [".wgsl"]
  /-- What follows the name of an asset in the name of a binding. -/
  assetSuffix : String := "Asset"
  /-- Texts that no path of a module contains. -/
  exclude : List String := []
  /-- What is removed from the directory of the modules when the bundle is written. -/
  cleanDirs : List String := ["core", "graphics", "scenes", "types"]
  deriving DecidableEq, Repr

namespace Options

/-- The path to the assets. -/
def srcPath (o : Options) : String := Path.join o.root o.srcDir

/-- The path to the modules. -/
def outPath (o : Options) : String := Path.join o.root o.outDir

/-- The path to the entry module. -/
def entryPath (o : Options) : String := Path.join o.outPath o.entry

/-- The path to the bundle. -/
def outputPath (o : Options) : String :=
  match o.output with
  | some output => Path.join o.root output
  | none => o.entryPath

/-- The path of the entry module as modules are named. -/
def entryKey (o : Options) : String := Path.relativeTo o.entryPath o.outPath

/-- What the caller of a command sets besides the options of the project. -/
structure Overrides where
  entry : Option String := none
  output : Option String := none
  /-- Whether nothing is removed. -/
  keepDirs : Bool := false
  deriving DecidableEq, Repr

def override (o : Options) (overrides : Overrides) : Options :=
  { o with
    entry := overrides.entry.getD o.entry
    output := overrides.output <|> o.output
    cleanDirs := if overrides.keepDirs then [] else o.cleanDirs }

end Options

/-- One of the options with a value. -/
inductive Setting
  | root (path : String)
  | srcDir (path : String)
  | outDir (path : String)
  | entry (text : String)
  | output (path : Option String)
  | moduleExtensions (texts : List String)
  | assetExtensions (texts : List String)
  | assetSuffix (text : String)
  | exclude (texts : List String)
  | cleanDirs (texts : List String)
  deriving DecidableEq, Repr

namespace Setting

inductive Name
  | root | srcDir | outDir | entry | output | moduleExtensions | assetExtensions | assetSuffix | exclude | cleanDirs
  deriving DecidableEq, Repr

namespace Name

/-- The names in the order of their values in a list. -/
def all : List Name :=
  [root, srcDir, outDir, entry, output, moduleExtensions, assetExtensions, assetSuffix, exclude, cleanDirs]

def text : Name → String
  | root => "root"
  | srcDir => "srcDir"
  | outDir => "outDir"
  | entry => "entry"
  | output => "output"
  | moduleExtensions => "moduleExtensions"
  | assetExtensions => "assetExtensions"
  | assetSuffix => "assetSuffix"
  | exclude => "exclude"
  | cleanDirs => "cleanDirs"

def ofText? (s : String) : Option Name := all.find? fun name => name.text = s

end Name

/-- How values are read from some source. -/
structure Source (m : Type → Type) where
  text : m String
  path : m String
  optionalPath : m (Option String)
  texts : m (List String)

/-- Reads the value of a setting. -/
def read {m : Type → Type} [Functor m] (source : Source m) : Name → m Setting
  | .root => root <$> source.path
  | .srcDir => srcDir <$> source.path
  | .outDir => outDir <$> source.path
  | .entry => entry <$> source.text
  | .output => output <$> source.optionalPath
  | .moduleExtensions => moduleExtensions <$> source.texts
  | .assetExtensions => assetExtensions <$> source.texts
  | .assetSuffix => assetSuffix <$> source.text
  | .exclude => exclude <$> source.texts
  | .cleanDirs => cleanDirs <$> source.texts

def name : Setting → Name
  | root _ => .root
  | srcDir _ => .srcDir
  | outDir _ => .outDir
  | entry _ => .entry
  | output _ => .output
  | moduleExtensions _ => .moduleExtensions
  | assetExtensions _ => .assetExtensions
  | assetSuffix _ => .assetSuffix
  | exclude _ => .exclude
  | cleanDirs _ => .cleanDirs

end Setting

namespace Options

/-- Options with one setting changed. -/
def set (o : Options) : Setting → Options
  | .root path => { o with root := path }
  | .srcDir path => { o with srcDir := path }
  | .outDir path => { o with outDir := path }
  | .entry text => { o with entry := text }
  | .output path => { o with output := path }
  | .moduleExtensions texts => { o with moduleExtensions := texts }
  | .assetExtensions texts => { o with assetExtensions := texts }
  | .assetSuffix text => { o with assetSuffix := text }
  | .exclude texts => { o with exclude := texts }
  | .cleanDirs texts => { o with cleanDirs := texts }

/-- The defaults with these settings put over them. -/
def ofSettings (settings : List Setting) : Options := settings.foldl set {}

/-- All settings, in the order of their names. -/
def settings (o : Options) : List Setting :=
  [.root o.root, .srcDir o.srcDir, .outDir o.outDir, .entry o.entry, .output o.output,
    .moduleExtensions o.moduleExtensions, .assetExtensions o.assetExtensions, .assetSuffix o.assetSuffix,
    .exclude o.exclude, .cleanDirs o.cleanDirs]

/-- Setting all settings of some options gives these options. -/
theorem ofSettings_settings (o : Options) : ofSettings o.settings = o := by
  simp [ofSettings, settings, set]

end Options

end ModuleBundler
