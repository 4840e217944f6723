import ModuleBundler.Files
import ModuleBundler.Log
import ModuleBundler.Options.Json

namespace ModuleBundler

/-- What is to be done with a file. -/
inductive FileTask
  | readModule | writeModule | readEntry | readAsset | readDirectory | examine | writeBundle | remove | openConfig
  deriving DecidableEq, Repr

/-- The failure of a task, without the path of the file. -/
def FileTask.failed : FileTask → String
  | readModule => "Failed to read module"
  | writeModule => "Failed to write module"
  | readEntry => "Failed to read entry module"
  | readAsset => "Failed to read asset"
  | readDirectory => "Failed to read directory"
  | examine => "Failed to stat"
  | writeBundle => "Failed to write bundle"
  | remove => "Failed to remove"
  | openConfig => "Unable to open config file"

inductive Failure
  /-- The module by this name cannot be parsed. -/
  | unparsable (name : String)
  | file (task : FileTask) (path : String) (cause : FileError)
  /-- A file of options is there but has no bytes to read. -/
  | unreadableConfig (path : String)
  | config (path : String) (cause : Json.Problem)
  | settings (cause : Mismatch)
  | missingModule (path : String)
  deriving Repr

def Failure.message : Failure → String
  | unparsable name => "Failed to parse module " ++ name
  | file task path _ => task.failed ++ " " ++ path
  | unreadableConfig path | config path _ => "Failed to parse JSON in " ++ path
  | settings cause => cause.message
  | missingModule path => "Module " ++ Text.display path ++ " does not exist"

/-- A value or a failure, with the events that led to it. -/
structure Attempt (α : Type) where
  result : Except Failure α
  events : List Event

namespace Attempt

variable {α β : Type}

protected def bind (x : Attempt α) (f : α → Attempt β) : Attempt β :=
  match x.result with
  | .ok a => ⟨(f a).result, x.events ++ (f a).events⟩
  | .error failure => ⟨.error failure, x.events⟩

instance : Monad Attempt where
  pure a := ⟨.ok a, []⟩
  bind := Attempt.bind

instance : MonadLift Noted Attempt where
  monadLift x := ⟨.ok x.value, x.events⟩

def fail (failure : Failure) : Attempt α := ⟨.error failure, []⟩

/-- The value of a task with a file. -/
def ofFile (task : FileTask) (path : String) : Except FileError α → Attempt α
  | .ok a => pure a
  | .error cause => fail (.file task path cause)

end Attempt

end ModuleBundler
