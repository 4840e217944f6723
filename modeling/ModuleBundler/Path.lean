import ModuleBundler.Text.Search

/-!
Paths as texts.

A path is a text, and joining paths never changes how they are written. Where two paths are compared they
are taken apart into steps (`Path.steps`), which leaves out what does not matter: repeated slashes, a
slash at the end, and, unless the path begins with it, the step that stays where it is.
-/

namespace ModuleBundler.Path

inductive Step
  | root
  /-- The step that stays where it is. -/
  | here
  | up
  | name (text : String)
  deriving DecidableEq, Repr

/-- How a step is written. -/
def Step.text : Step → String
  | root => "/"
  | here => "."
  | up => ".."
  | name text => text

/-- The step that a text between two slashes stands for. -/
def step? (text : List Char) : Option Step :=
  match text with
  | [] => none
  | ['.'] => some .here
  | ['.', '.'] => some .up
  | _ => some (.name (String.ofList text))

/-- All steps of a path. A slash at the end is no step. -/
def allSteps (path : String) : List Step :=
  let named := (Text.splitOn '/' path.toList).filterMap step?
  if path.toList.head? = some '/' then .root :: named else named

/-- The steps of a path that matter. -/
def steps (path : String) : List Step :=
  match allSteps path with
  | [] => []
  | first :: rest => first :: rest.filter (· ≠ .here)

def isAbsolute (path : String) : Bool := path.toList.head? = some '/'

def endsInSlash (path : String) : Bool := path.toList.getLast? = some '/'

/-- The path that `path` is, seen from `base`. -/
def join (base path : String) : String :=
  if isAbsolute path || base.isEmpty then path
  else if endsInSlash base then base ++ path
  else base ++ "/" ++ path

/-- The steps that lead from one place to another. -/
def stepsBetween : (base path : List Step) → List Step
  | b :: base, p :: path =>
    if b = p then stepsBetween base path else (b :: base).map (fun _ => .up) ++ p :: path
  | base, path => base.map (fun _ => .up) ++ path

/-- The path that leads from `base` to `path`. -/
def relativeTo (path base : String) : String :=
  "/".intercalate ((stepsBetween (steps base) (steps path)).map Step.text)

/-- The part of a path after its last slash. -/
def lastPart (path : String) : String := String.ofList (Text.afterLast '/' path.toList)

/-- The part of a path before its last slash, or a dot if there is none. -/
def parent (path : String) : String :=
  match Text.beforeLast? '/' path.toList with
  | some before => String.ofList before
  | none => "."

end ModuleBundler.Path
