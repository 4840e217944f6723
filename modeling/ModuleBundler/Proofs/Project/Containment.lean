import ModuleBundler.Proofs.Files.Containment
import ModuleBundler.Proofs.Project.Changes

namespace ModuleBundler.Project

variable {files middle now : Files} {directory name : String} {names : List String} {outer : Location}
  {result : Except Failure Unit}

theorem cleanupOne_spares_iff (noLinks : files.NoLinks) (ends : (cleanupOne directory name).Ends files result now) :
    now.SparesOutside files outer ↔ files.RemovesOnlyInside (Path.join directory name) outer := by
  by_cases found : files.look (Path.join directory name) = .ok .directory
  · have removed : now = (files.removeTree (Path.join directory name)).2 := by
      rw [files_of_cleanupOne ends, if_pos (Files.reaches_iff.mpr ⟨_, found⟩)]
    rw [removed, (Files.lacks_removeTree_of_directory noLinks found).spares_iff,
      Files.removesOnlyInside_iff noLinks found]
  · have same : now = files := by
      rw [files_of_cleanupOne ends, Files.removeTree_of_no_directory noLinks found, ite_self]
    subst same
    exact iff_of_true ⟨fun _ _ => rfl, id⟩ fun isDirectory => absurd isDirectory found

/-- Whether cleaning up comes to a name in a list, with the files as the names before it have left them. -/
inductive ComesTo (directory : String) : Files → List String → String → Files → Prop
  | here {files : Files} {name : String} {names : List String} : ComesTo directory files (name :: names) name files
  | later {files between middle : Files} {first name : String} {names : List String} :
      (cleanupOne directory first).Ends files (.ok ()) between → ComesTo directory between names name middle →
      ComesTo directory files (first :: names) name middle

theorem comesTo_iff : ComesTo directory files names name middle ↔
    ∃ front back, names = front ++ name :: back ∧ (cleanup directory front).Ends files (.ok ()) middle := by
  constructor
  · intro comes
    induction comes with
    | here => exact ⟨[], _, rfl, Work.pure_ends_iff.mpr ⟨rfl, rfl⟩⟩
    | @later _ _ _ first _ _ ends _ ih =>
      obtain ⟨front, back, rfl, reached⟩ := ih
      exact ⟨first :: front, back, rfl, cleanup_cons_ends ends reached⟩
  · rintro ⟨front, back, rfl, reached⟩
    induction front generalizing files with
    | nil =>
      obtain ⟨_, rfl⟩ := Work.pure_ends_iff.mp reached
      exact .here
    | cons first front ih =>
      rw [cleanup_cons] at reached
      obtain ⟨_, between, ends, rest⟩ := Work.bind_ends_ok_iff.mp reached
      exact .later ends (ih rest)

theorem ComesTo.mem (comes : ComesTo directory files names name middle) : name ∈ names := by
  obtain ⟨front, back, rfl, _⟩ := comesTo_iff.mp comes
  exact List.mem_append_right front List.mem_cons_self

/-- The paths of names have the same places all the time. -/
theorem ComesTo.placeOf_eq (comes : ComesTo directory files names name middle) (path : String) :
    middle.placeOf path = files.placeOf path := by
  obtain ⟨_, _, _, reached⟩ := comesTo_iff.mp comes
  obtain ⟨_, lacks⟩ := lacks_cleanup reached
  rw [Files.placeOf, Files.placeOf, lacks.home]

/-- Cleaning up spares what is outside of a place exactly if each name does that it comes to. -/
theorem sparesOutside_iff (noLinks : files.NoLinks) (ends : (cleanup directory names).Ends files result now) :
    now.SparesOutside files outer ↔
      ∀ name middle, ComesTo directory files names name middle →
          middle.RemovesOnlyInside (Path.join directory name) outer := by
  induction names generalizing files with
  | nil =>
    obtain ⟨_, rfl⟩ := Work.pure_ends_iff.mp ends
    exact iff_of_true ⟨fun _ _ => rfl, id⟩ nofun
  | cons first names ih =>
    rw [cleanup_cons] at ends
    rcases Work.bind_ends_iff.mp ends with ⟨_, between, begins, rest⟩ | ⟨failure, begins, rfl⟩
    · obtain ⟨_, earlier, _⟩ := lacks_cleanupOne begins
      obtain ⟨_, later⟩ := lacks_cleanup rest
      rw [later.spares_trans_iff earlier, cleanupOne_spares_iff noLinks begins, ih (noLinks.of_lacks earlier) rest]
      constructor
      · rintro ⟨here, onward⟩ name middle (_ | ⟨begins', comes⟩)
        · exact here
        · obtain ⟨_, rfl⟩ := begins'.unique begins
          exact onward name middle comes
      · exact fun each => ⟨each first files .here, fun name middle comes => each name middle (.later begins comes)⟩
    -- after a failure it comes to no other name
    · rw [cleanupOne_spares_iff noLinks begins]
      constructor
      · rintro here name middle (_ | ⟨begins', _⟩)
        · exact here
        · cases (begins'.unique begins).1
      · exact fun each => each first files .here

/-- Names that go down from the directory take nothing but what is inside. -/
theorem sparesOutside_of_goesDown (noLinks : files.NoLinks) (down : ∀ name ∈ names, Path.GoesDown name)
    (ends : (cleanup directory names).Ends files result now) : now.SparesOutside files (files.placeOf directory) := by
  refine (sparesOutside_iff noLinks ends).mpr fun name middle comes _ => Or.inl ?_
  rw [← comes.placeOf_eq directory]
  exact middle.isInside_placeOf_join directory (down name comes.mem)

/-- Cleaning up leaves all that is not inside of its directory as it is, the directory itself included, exactly if
each name that it comes to takes nothing but what is inside. So it does for names that go down, as those do that
are listed by default. -/
theorem cleanup_spares_iff (noLinks : files.NoLinks) (directory : String) (names : List String) :
    ((cleaned files directory names).SparesOutside files (files.placeOf directory) ↔
      ∀ front name back middle, names = front ++ name :: back → (cleanup directory front).Ends files (.ok ()) middle →
        middle.RemovesOnlyInside (Path.join directory name) (files.placeOf directory)) ∧
    ((∀ name ∈ names, Path.GoesDown name) →
      (cleaned files directory names).SparesOutside files (files.placeOf directory)) ∧
    ∀ name ∈ ({} : Options).cleanDirs, Path.GoesDown name := by
  have ends := (cleanup directory names).ends files
  refine ⟨(sparesOutside_iff noLinks ends).trans ?_, fun down => sparesOutside_of_goesDown noLinks down ends, ?_⟩
  · simp only [comesTo_iff]
    constructor
    · exact fun each front name back middle eq reached => each name middle ⟨front, back, eq, reached⟩
    · rintro each name middle ⟨front, back, eq, reached⟩
      exact each front name back middle eq reached
  · have areNames : ∀ name ∈ ({} : Options).cleanDirs, Path.IsName name := by decide
    exact fun name member => (areNames name member).goesDown

/-- A directory in the directory of the modules is removed, and nothing else. -/
theorem cleanup_spares_core : Files.oneModule.NoLinks ∧ (∀ name ∈ ["core"], Path.GoesDown name) ∧
    (cleaned .oneModule "./dist" ["core"]).SparesOutside .oneModule (Files.oneModule.placeOf "./dist") ∧
    Files.oneModule.RemovesOnlyInside (Path.join "./dist" "core") (Files.oneModule.placeOf "./dist") := by
  have noLinks := Files.oneModule_isPlain.noLinks
  obtain ⟨spares_iff, spares, byDefault⟩ := cleanup_spares_iff noLinks "./dist" ["core"]
  have down : ∀ name ∈ ["core"], Path.GoesDown name := List.forall_mem_singleton.mpr (byDefault "core" (by decide))
  have before : (cleanup "./dist" []).Ends .oneModule (.ok ()) .oneModule := Work.pure_ends_iff.mpr ⟨rfl, rfl⟩
  exact ⟨noLinks, down, spares down, spares_iff.mp (spares down) [] "core" [] _ rfl before⟩

/-- A name that leads out of the directory and into another one: the other one is removed, and nothing fails. -/
theorem cleanup_takes_neighbour : ∃ now, (nameClash "b;".toUTF8).NoLinks ∧
    (cleanup "dist" ["../src"]).Ends (nameClash "b;".toUTF8) (.ok ()) now ∧
    (nameClash "b;".toUTF8).content? ["basic.wgsl", "src", "w"] = some (.file "x".toUTF8) ∧
    now.content? ["basic.wgsl", "src", "w"] = none ∧
    ¬now.SparesOutside (nameClash "b;".toUTF8) ((nameClash "b;".toUTF8).placeOf "dist") := by
  have noLinks := nameClash_noLinks "b;".toUTF8
  have last : (Path.allSteps (Path.join "dist" "../src")).getLast? = some (.name "src") := by decide
  have removed := Files.removeTree_of_leads noLinks (by decide) last (by decide) rfl (by decide)
  have reaches : (nameClash "b;".toUTF8).reaches (Path.join "dist" "../src") := by
    rw [reaches_eq_leads noLinks (by decide)]
    decide
  have first := cleanupOne_of_removeTree reaches removed
  refine ⟨_, noLinks, cleanup_cons_ends first (Work.pure_ends_iff.mpr ⟨rfl, rfl⟩), rfl, rfl, fun spares => ?_⟩
  cases spares.unchanged ["basic.wgsl", "src", "w"] (by decide)

end ModuleBundler.Project
