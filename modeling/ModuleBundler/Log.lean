import ModuleBundler.Text.Display

namespace ModuleBundler

inductive Level
  | warn | info | debug | trace
  deriving DecidableEq, Repr

def Level.name : Level → String
  | warn => "WARN"
  | info => "INFO"
  | debug => "DEBUG"
  | trace => "TRACE"

inductive Event
  | scanning (root : String)
  | excluded (path : String)
  | assetReplaced (asset path : String)
  | embedded (binding name : String)
  | assetsEmbedded (assets files : Nat)
  | modulesFound (count : Nat)
  | importsFound (key : String) (imports : List String)
  | unresolved (specifier key : String)
  | cycle (key : String)
  | orderResolved
  | unsupportedItem (name : String)
  | overlappingEdit (offset : Nat)
  | emptyModule (path : String)
  | entryMissing (path : String)
  | removing (path : String)
  | combined (modules : Nat) (output : String)
  | bundled (fragments modules : Nat)
  | usingConfig (path : String)
  deriving DecidableEq, Repr

namespace Event

def level : Event → Level
  | entryMissing _ => .warn
  | scanning _ | assetsEmbedded .. | modulesFound _ | orderResolved | combined .. | bundled .. => .info
  | assetReplaced .. | embedded .. | importsFound .. | unsupportedItem _ | emptyModule _ | removing _
  | usingConfig _ => .debug
  | excluded _ | unresolved .. | cycle _ | overlappingEdit _ => .trace

def message : Event → String
  | scanning root => "Scanning source files in " ++ root
  | excluded path => "Excluded " ++ path
  | assetReplaced asset path => "Asset " ++ asset ++ " replaced by " ++ path
  | embedded binding name => "Embed " ++ binding ++ " in " ++ name
  | assetsEmbedded assets files =>
    "Embedded " ++ toString assets ++ " asset(s) in " ++ toString files ++ " file(s)"
  | modulesFound count => "Found " ++ toString count ++ " module file(s)"
  | importsFound key imports => key ++ " imports " ++ Text.displayAll imports
  | unresolved specifier key => "Unresolved " ++ specifier ++ " in " ++ key
  | cycle key => "Cycle detected at " ++ key
  | orderResolved => "Resolved dependency order"
  | unsupportedItem name => "Unsupported module declaration in " ++ name
  | overlappingEdit offset => "Skipped overlapping edit at " ++ toString offset
  | emptyModule path => "Skip empty module " ++ path
  | entryMissing path => "Entry module " ++ path ++ " does not exist"
  | removing path => "Remove " ++ path
  | combined modules output => "Combined " ++ toString modules ++ " module(s) into " ++ output
  | bundled fragments modules =>
    "Bundled " ++ toString fragments ++ " fragment(s) from " ++ toString modules ++ " module(s)"
  | usingConfig path => "Using config " ++ path

/-- The event as a line of a log. -/
def line (event : Event) : String := event.level.name ++ " " ++ event.message

end Event

/-- A value with the events that led to it. -/
structure Noted (α : Type) where
  value : α
  events : List Event

namespace Noted

instance : Monad Noted where
  pure a := ⟨a, []⟩
  bind x f :=
    let y := f x.value
    ⟨y.value, x.events ++ y.events⟩

/-- Notes one event. -/
def note (event : Event) : Noted Unit := ⟨(), [event]⟩

end Noted

end ModuleBundler
