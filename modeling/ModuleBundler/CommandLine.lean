import ModuleBundler.CommandLine.Arguments
import ModuleBundler.Project

namespace ModuleBundler

namespace CommandLine

def programName : String := "sketchpack"

def programVersion : String := "0.1.0"

def config : Parameter := { long := "config", short := some 'c', takesValue := true }

def root : Parameter := { long := "root", short := some 'r', takesValue := true }

def entry : Parameter := { long := "entry", short := some 'e', takesValue := true }

def output : Parameter := { long := "output", short := some 'o', takesValue := true }

def keepDirs : Parameter := { long := "keep-dirs" }

def includeFile : Parameter := { long := "include-file", short := some 'f' }

/-- Where the options of a project are found. -/
structure ProjectPlace where
  root : String := "."
  config : Option String := none
  deriving DecidableEq, Repr

inductive Command
  | build (place : ProjectPlace) (overrides : Options.Overrides)
  | tree (place : ProjectPlace) (withLocation : Bool)
  | order (place : ProjectPlace)
  | transform (path : String)
  deriving Repr

/-- What a command line asks for. -/
inductive Request
  | run (command : Command)
  | help
  /-- The version, by the name that it is shown with. -/
  | version (name : String)
  | misuse

namespace Command

def names : List String := ["build", "tree", "order", "transform"]

def placeOf (found : Arguments) : ProjectPlace := ⟨(found.value? CommandLine.root).getD ".", found.value? config⟩

/-- Reads a command by its name. -/
def read (name : String) (arguments : List String) : Except Stop Command :=
  match name with
  | "build" => do
    let found ← Arguments.read [config, root, entry, output, keepDirs] 0 arguments
    return .build (placeOf found) ⟨found.value? entry, found.value? output, found.isGiven keepDirs⟩
  | "tree" => do
    let found ← Arguments.read [config, root, includeFile] 0 arguments
    return .tree (placeOf found) (found.isGiven includeFile)
  | "order" => do
    let found ← Arguments.read [config, root] 0 arguments
    return .order (placeOf found)
  | "transform" => do
    match (← Arguments.read [] 1 arguments).operands with
    | [path] => return .transform path
    | _ => throw .misuse
  | _ => throw .misuse

end Command

/-- Reads a command line. -/
def Request.read : List String → Request
  | [] => .misuse
  | first :: rest =>
    if Command.names.contains first then
      match Command.read first rest with
      | .ok command => .run command
      | .error .help => .help
      | .error .version => .version (programName ++ "-" ++ first)
      | .error .misuse => .misuse
    else if first = "help" then
      if rest.all Command.names.contains then .help else .misuse
    else
      match Arguments.read [] 0 (first :: rest) with
      | .error .help => .help
      | .error .version => .version programName
      | _ => .misuse

def optionsAt (place : ProjectPlace) : Work Options := Project.discover place.root place.config

/-- A line of the order: a number, in three columns if it fits, and the path of a module. -/
def orderLine (number : Nat) (key : String) : String :=
  let digits := toString number
  "".pushn ' ' (3 - digits.length) ++ digits ++ " " ++ key ++ "\n"

/-- The order of modules, with the entry module at the end. -/
def orderText (keys : List String) (entryKey : String) : String :=
  String.join (keys.mapIdx fun i key => orderLine (i + 1) key) ++ "    " ++ entryKey ++ "\n"

/-- Runs a command, and gives what it shows. -/
def Command.run : Command → Work String
  | build place overrides => do
    Project.build ((← optionsAt place).override overrides)
    return ""
  | tree place withLocation => do
    let g ← Project.loadGraph (← optionsAt place)
    (g.drawn withLocation : Noted _)
  | order place => do
    let o ← optionsAt place
    let g ← Project.loadGraph o
    let ordered ← (g.ordered : Noted _)
    return orderText (ordered.map ModuleNode.key) o.entryKey
  | transform path => do
    if !(← Work.look (·.isFile path)) then (Attempt.fail (.missingModule path) : Attempt Unit)
    return (← Project.plainFile path) ++ "\n"

/-- What a program leaves behind. -/
structure Reply where
  exitCode : Nat
  output : String
  files : Files
  events : List Event
  /-- Why the program failed, if a command did. -/
  failure : Option Failure := none

/-- Runs the program. -/
def reply (arguments : List String) (files : Files) : Reply :=
  match Request.read arguments with
  | .misuse => ⟨1, "", files, [], none⟩
  | .help => ⟨0, "", files, [], none⟩
  | .version name => ⟨0, name ++ " " ++ programVersion ++ "\n", files, [], none⟩
  | .run command =>
    let outcome := command.run.run files
    match outcome.result with
    | .ok shown => ⟨0, shown, outcome.files, outcome.events, none⟩
    | .error failure => ⟨1, "", outcome.files, outcome.events, some failure⟩

end CommandLine

end ModuleBundler
