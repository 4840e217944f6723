import ModuleBundler.Failure
import ModuleBundler.Files.Change

namespace ModuleBundler

/-- What is there when work has ended. -/
structure Outcome (α : Type) where
  result : Except Failure α
  files : Files
  events : List Event

structure Work (α : Type) where
  run : Files → Outcome α

namespace Work

variable {α β : Type}

protected def bind (w : Work α) (f : α → Work β) : Work β where
  run files :=
    let first := w.run files
    match first.result with
    | .ok a =>
      let second := (f a).run first.files
      ⟨second.result, second.files, first.events ++ second.events⟩
    | .error failure => ⟨.error failure, first.files, first.events⟩

instance : Monad Work where
  pure a := ⟨fun files => ⟨.ok a, files, []⟩⟩
  bind := Work.bind

instance : MonadLift Attempt Work where
  monadLift x := ⟨fun files => ⟨x.result, files, x.events⟩⟩

/-- What `f` finds in the files. -/
def look (f : Files → α) : Work α := ⟨fun files => ⟨.ok (f files), files, []⟩⟩

/-- An attempt that needs to see the files. -/
def ofAttempt (f : Files → Attempt α) : Work α := ⟨fun files => ⟨(f files).result, files, (f files).events⟩⟩

def readText (task : FileTask) (path : String) : Work String :=
  ofAttempt fun files => .ofFile task path (files.readText path)

/-- Writes a text to a file. -/
def writeText (task : FileTask) (path text : String) : Work Unit where
  run files :=
    match files.write path text.toUTF8 with
    | .ok files => ⟨.ok (), files, []⟩
    | .error cause => ⟨.error (.file task path cause), files, []⟩

def removeTree (path : String) : Work Unit where
  run files :=
    match files.removeTree path with
    | (.ok (), files) => ⟨.ok (), files, []⟩
    | (.error cause, files) => ⟨.error (.file .remove path cause), files, []⟩

end Work

end ModuleBundler
