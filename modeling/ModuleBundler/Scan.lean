import ModuleBundler.Counting
import ModuleBundler.Failure
import ModuleBundler.SourceFile

namespace ModuleBundler

namespace Files

variable {files : Files} {place found : Location} {text : String} {links left : Nat} {content : Content}

theorem entry_of_content? (present : files.content? (text :: place) = some content) :
    ⟨text :: place, content⟩ ∈ files.entries.toList := by
  simp only [content?, KeyedList.get?, Option.map_eq_some_iff] at present
  obtain ⟨⟨location, here⟩, atPlace, rfl⟩ := present
  have same := List.find?_some atPlace
  simp only [decide_eq_true_eq] at same
  exact same ▸ List.mem_of_find?_eq_some atPlace

/-- Less is inside of a directory than is inside of the directory above. -/
theorem inside_cons_lt (present : files.content? (text :: place) = some content) :
    (files.inside (text :: place)).length < (files.inside place).length := by
  simp only [inside, ← List.countP_eq_length_filter]
  refine countP_lt_countP (fun entry deeper => ?_) ?_ ?_ (entry_of_content? present)
  · simp only [isInside, Bool.and_eq_true, List.isSuffixOf_iff_suffix, decide_eq_true_eq] at deeper ⊢
    obtain ⟨above, longer⟩ := deeper
    have length := above.length_le
    rw [List.length_cons] at length
    exact ⟨(List.suffix_cons text place).trans above, by omega⟩
  · simp [isInside]
  · simp [isInside]

/-- One step to a name either takes one of the links or stays below the directory. -/
theorem walk_name (reached : files.walk links place [.name text] = .ok (found, left)) :
    left < links ∨ left = links ∧ found = text :: place ∧ ∃ content,
        files.content? (text :: place) = some content := by
  rw [walk.eq_def] at reached
  simp only at reached
  split at reached
  · cases reached
  · cases reached
  · cases reached
  · split at reached
    · cases reached
    · split at reached
      · cases reached
      · cases reached
      · exact Or.inl (Nat.lt_succ_of_le (walk_links_le reached))
      · rw [walk] at reached
        cases reached
        exact Or.inr ⟨rfl, rfl, _, ‹files.content? (text :: place) = some _›⟩

end Files

/-- What a scan looks for. -/
structure Scan where
  /-- Where the paths of what is found begin. -/
  base : String
  extensions : List String
  exclude : List String := []

namespace Scan

def isExcluded (scan : Scan) (path : String) : Bool :=
  scan.exclude.any fun part => Text.occursIn part.toList path.toList

def isWanted (scan : Scan) (name : String) : Bool :=
  scan.extensions.any fun extension => extension.toList.isSuffixOf name.toList

/-- The file that is found by a name in the directory with the path `path`. -/
def fileAt (scan : Scan) (path name : String) : SourceFile :=
  let location := Path.join path name
  .ofRelativePath location (Path.relativeTo location scan.base) name

/-- Scans what goes by these names in a directory. -/
def below (scan : Scan) (files : Files) (links : Nat) (place : Location) (path : String) :
    List String → Attempt (List SourceFile)
  | [] => pure []
  | name :: names => do
    let file := scan.fileAt path name
    if scan.isExcluded file.relativePath then
      Noted.note (.excluded file.relativePath)
      scan.below files links place path names
    else if let some cause := Files.pathError? file.location then .fail (.file .examine file.location cause)
    else
      match _ : files.walk links place [.name name] with
      | .error cause => .fail (.file .examine file.location cause)
      | .ok (found, left) =>
        match files.content? found with
        | none => .fail (.file .examine file.location .notFound)
        | some .directory =>
          let inner ← scan.below files left found file.location (files.namesIn found)
          return inner ++ (← scan.below files links place path names)
        | some (.file _) | some (.link _) =>
          let others ← scan.below files links place path names
          return if scan.isWanted name then file :: others else others
termination_by names => (links, (files.inside place).length, names.length)
decreasing_by
  · exact Prod.Lex.right _ (Prod.Lex.right _ (Nat.lt_succ_self _))
  · rcases Files.walk_name ‹_› with less | ⟨same, rfl, _, present⟩
    · exact Prod.Lex.left _ _ less
    · exact same ▸ Prod.Lex.right _ (Prod.Lex.left _ _ (Files.inside_cons_lt present))
  · exact Prod.Lex.right _ (Prod.Lex.right _ (Nat.lt_succ_self _))
  · exact Prod.Lex.right _ (Prod.Lex.right _ (Nat.lt_succ_self _))

/-- Scans a directory. If nothing is there, nothing is found. -/
def run (scan : Scan) (files : Files) (path : String) : Attempt (List SourceFile) :=
  match files.reach path with
  | .error _ => pure []
  | .ok (place, links) =>
    match files.content? place with
    | none => pure []
    | some .directory => scan.below files links place path (files.namesIn place)
    | some (.file _) | some (.link _) => .fail (.file .readDirectory path .notADirectory)

end Scan

end ModuleBundler
