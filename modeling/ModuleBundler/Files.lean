import ModuleBundler.KeyedList
import ModuleBundler.Path

/-!
A tree of files as a value.

Each entry of the tree has one place (`Location`), and each place has at most one entry. A path is only a
way to a place: it may lead through links, and it may lead nowhere (`Files.walk`).
-/

namespace ModuleBundler

/-- The names that lead from the root of the tree to a place, with the innermost first. -/
abbrev Location := List String

/-- What stands at a place. -/
inductive Content
  | file (bytes : ByteArray)
  /-- A link: a path that is followed from the directory of the link. -/
  | link (target : String)
  | directory

structure Entry where
  location : Location
  content : Content

structure Files where
  entries : KeyedList Entry.location
  /-- The directory in which paths begin. -/
  home : Location

/-- Why something cannot be done with a file. -/
inductive FileError
  | notFound
  | notADirectory
  | isADirectory
  | notEmpty
  /-- The bytes of a file are no text. -/
  | notText
  | notAllowed
  | nameTooLong
  /-- A path leads through more links than one path may. -/
  | tooManyLinks
  deriving DecidableEq, Repr

namespace Files

/-- What stands at a place. The root of the tree is always there. -/
def content? (files : Files) (place : Location) : Option Content :=
  match place with
  | [] => some .directory
  | _ => (files.entries.get? place).map Entry.content

/-- The names in a directory, in the order of the entries. -/
def namesIn (files : Files) (place : Location) : List String :=
  files.entries.toList.filterMap fun entry =>
    match entry.location with
    | name :: above => if above = place then some name else none
    | [] => none

/-- Whether a place is inside of another one. -/
def isInside (inner outer : Location) : Bool := outer.isSuffixOf inner && inner.length ≠ outer.length

/-- The entries inside of a place, at any depth. -/
def inside (files : Files) (place : Location) : List Entry :=
  files.entries.toList.filter fun entry => isInside entry.location place

/-- Most bytes that a name may have. -/
def longestName : Nat := 255

/-- One byte more than a path may have. -/
def pathLimit : Nat := 4096

/-- How many links one path may lead through. -/
def mostLinks : Nat := 40

/-- What is wrong with a path, wherever it leads. -/
def pathError? (path : String) : Option FileError :=
  if path.toList.contains (Char.ofNat 0) then some .notAllowed
  else if path.isEmpty then some .notFound
  else if pathLimit ≤ path.utf8ByteSize then some .nameTooLong
  else none

/-- The steps that a walk along a path takes. After a slash at the end there must be a directory to stay in. -/
def stepsAlong (path : String) : List Path.Step :=
  if Path.endsInSlash path then Path.allSteps path ++ [.here] else Path.allSteps path

/-- Walks from a directory, and gives the place where the walk ends, which has no link, and how many links are
left for a walk that goes on from there. -/
def walk (files : Files) (links : Nat) (place : Location) : List Path.Step → Except FileError (Location × Nat)
  | [] => .ok (place, links)
  | step :: steps =>
    match files.content? place with
    | none => .error .notFound
    | some (.file _) | some (.link _) => .error .notADirectory
    | some .directory =>
      match step with
      | .root => files.walk links [] steps
      | .here => files.walk links place steps
      | .up => files.walk links place.tail steps
      | .name text =>
        if longestName < text.utf8ByteSize then .error .nameTooLong
        else
          match files.content? (text :: place), links with
          | none, _ => .error .notFound
          | some (.link _), 0 => .error .tooManyLinks
          | some (.link target), links + 1 => files.walk links place (stepsAlong target ++ steps)
          | some _, links => files.walk links (text :: place) steps
termination_by steps => (links, steps.length)
decreasing_by
  · exact Prod.Lex.right _ (Nat.lt_succ_self _)
  · exact Prod.Lex.right _ (Nat.lt_succ_self _)
  · exact Prod.Lex.right _ (Nat.lt_succ_self _)
  · exact Prod.Lex.left _ _ (Nat.lt_succ_self _)
  · exact Prod.Lex.right _ (Nat.lt_succ_self _)

theorem walk_links_le {files : Files} {links left : Nat} {place found : Location} {steps : List Path.Step}
    (reached : files.walk links place steps = .ok (found, left)) : left ≤ links := by
  fun_induction walk files links place steps <;> simp_all
  omega

/-- The place that a path leads to, and how many links are left for a path that goes on from there. -/
def reach (files : Files) (path : String) : Except FileError (Location × Nat) :=
  match pathError? path with
  | some error => .error error
  | none => files.walk mostLinks files.home (stepsAlong path)

/-- What a path leads to. -/
def look (files : Files) (path : String) : Except FileError Content :=
  match files.reach path with
  | .error error => .error error
  | .ok (place, _) =>
    match files.content? place with
    | some content => .ok content
    | none => .error .notFound

/-- Whether a path leads anywhere. -/
def reaches (files : Files) (path : String) : Bool := (files.look path).isOk

/-- Whether a path leads to a file. -/
def isFile (files : Files) (path : String) : Bool := files.look path matches .ok (.file _)

/-- The text of the file that a path leads to. -/
def readText (files : Files) (path : String) : Except FileError String :=
  match files.look path with
  | .error error => .error error
  | .ok (.file bytes) =>
    match String.fromUTF8? bytes with
    | some text => .ok text
    | none => .error .notText
  | .ok _ => .error .isADirectory

end Files

end ModuleBundler
