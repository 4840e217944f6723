import ModuleBundler.Files

namespace ModuleBundler.Files

/-- Where a file is written to that has the last of `steps` for its name. A link with that name is followed,
so the file may be one that the link only promises. -/
def writePlace (files : Files) (links : Nat) (place : Location) (steps : List Path.Step) (endsInSlash : Bool) :
    Except FileError Location :=
  match _ : files.walk links place steps.dropLast with
  | .error error => .error error
  | .ok (above, left) =>
    match files.content? above with
    | none => .error .notFound
    | some (.file _) | some (.link _) => .error .notADirectory
    | some .directory =>
      match endsInSlash, steps.getLast? with
      | false, some (.name text) =>
        if longestName < text.utf8ByteSize then .error .nameTooLong
        else
          match files.content? (text :: above), left with
          | some .directory, _ => .error .isADirectory
          | some (.link _), 0 => .error .tooManyLinks
          | some (.link target), left + 1 =>
            files.writePlace left above (Path.allSteps target) (Path.endsInSlash target)
          | _, _ => .ok (text :: above)
      | _, _ => .error .isADirectory
termination_by links
decreasing_by exact walk_links_le ‹_›

/-- Puts an entry into the tree, for the one that stands at its place if there is one. -/
def put (files : Files) (place : Location) (content : Content) : Files :=
  { files with entries := files.entries.put ⟨place, content⟩ }

/-- Writes the file that a path leads to. -/
def write (files : Files) (path : String) (bytes : ByteArray) : Except FileError Files :=
  match pathError? path with
  | some error => .error error
  | none =>
    (files.writePlace mostLinks files.home (Path.allSteps path) (Path.endsInSlash path)).map fun place =>
      files.put place (.file bytes)

def remove (files : Files) (place : Location) : Files :=
  { files with entries := files.entries.filter (·.location ≠ place) }

/-- Removes all that is inside of a place. -/
def clear (files : Files) (place : Location) : Files :=
  { files with entries := files.entries.filter fun entry => !isInside entry.location place }

/-- The directory of the last step of a path, and that step. -/
def lastStep (files : Files) (path : String) : Except FileError (Location × Option Path.Step) :=
  let steps := Path.allSteps path
  (files.walk mostLinks files.home steps.dropLast).map fun reached => (reached.1, steps.getLast?)

/-- The link that a path names, if it names one. A slash behind its name makes the path one that goes on. -/
def ownLink? (files : Files) (path : String) : Option Location :=
  match Path.endsInSlash path, files.lastStep path with
  | false, .ok (above, some (.name text)) =>
    match files.content? (text :: above) with
    | some (.link _) => some (text :: above)
    | _ => none
  | _, _ => none

/-- Removes a directory with nothing inside. The path must end in its name. If the directory has gone, nothing is left
to do. -/
def removeEmptied (files : Files) (path : String) : Except FileError Files :=
  match files.lastStep path with
  | .error .notFound => .ok files
  | .error error => .error error
  | .ok (above, some (.name text)) =>
    match files.content? (text :: above) with
    | none => .ok files
    | some .directory => .ok (files.remove (text :: above))
    | some _ => .error .notADirectory
  | .ok (_, some .here) => .error .notAllowed
  | .ok _ => .error .notEmpty

/-- Removes the directory that a path leads to and all that is inside. Links are removed but not followed; so is the
link that the path itself may name. -/
def removeTree (files : Files) (path : String) : Except FileError Unit × Files :=
  match pathError? path, files.ownLink? path with
  | some error, _ => (.error error, files)
  | none, some place => (.ok (), files.remove place)
  | none, none =>
    match files.reach path with
    | .error error => (.error error, files)
    | .ok (place, _) =>
      match files.content? place with
      | some .directory =>
        let cleared := files.clear place
        match cleared.removeEmptied path with
        | .ok emptied => (.ok (), emptied)
        | .error error => (.error error, cleared)
      | _ => (.error .notADirectory, files)

/-- Goes along a path from a directory, and makes the directories that are missing. -/
def makeDirectories (files : Files) (place : Location) : List Path.Step → Files × Location
  | [] => (files, place)
  | step :: steps =>
    match files.walk mostLinks place [step], step with
    | .ok (next, _), _ => files.makeDirectories next steps
    | .error _, .name text => (files.put (text :: place) .directory).makeDirectories (text :: place) steps
    | .error _, _ => files.makeDirectories place steps

/-- Puts an entry where a path leads, with the directories above it. -/
def create (files : Files) (path : String) (content : Content) : Files :=
  let steps := Path.allSteps path
  match content, steps.getLast? with
  | .file _, some (.name text) | .link _, some (.name text) =>
    let (files, above) := files.makeDirectories files.home steps.dropLast
    files.put (text :: above) content
  | _, _ => (files.makeDirectories files.home steps).1

/-- A tree with nothing but a directory to begin paths in. -/
def ofHome (home : Location) : Files :=
  (⟨.empty, home⟩ : Files).makeDirectories [] (home.reverse.map .name) |>.1

end ModuleBundler.Files
