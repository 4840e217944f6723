import ModuleBundler.Project
import ModuleBundler.Proofs.Files.Plain
import ModuleBundler.Proofs.Files.Removal
import ModuleBundler.Proofs.Work

namespace ModuleBundler.Project

variable {files now : Files} {directory name path : String} {names : List String}
  {content : Content} {place : Location}

/-- What cleaning up does about one name in a directory. -/
def cleanupOne (directory name : String) : Work Unit := do
  let path := Path.join directory name
  if ← Work.look (·.reaches path) then
    Noted.note (.removing path)
    Work.removeTree path

theorem cleanup_cons (directory name : String) (names : List String) :
    cleanup directory (name :: names) = (do cleanupOne directory name; cleanup directory names) := by
  simp only [cleanup, cleanupOne, bind_assoc]
  congr 1
  funext found
  cases found <;> simp

/-- The places that are cleared for one name in a directory. -/
def IsCleaned (files : Files) (directory name : String) (place : Location) : Prop :=
  files.reaches (Path.join directory name) ∧ files.Sweeps (Path.join directory name) place

/-- Cleaning up clears nothing but what it is told to, and if it succeeds all of that. -/
theorem lacks_cleanupOne {result : Except Failure Unit} (ends : (cleanupOne directory name).Ends files result now) :
    ∃ lost, Files.Lacks now files lost ∧ (∀ place, lost place → IsCleaned files directory name place) ∧
      (result = .ok () → ∀ place, IsCleaned files directory name place → lost place) := by
  rw [cleanupOne, Work.look_bind_ends_iff] at ends
  cases reaches : files.reaches (Path.join directory name) with
  | false =>
    rw [reaches, if_neg Bool.false_ne_true, Work.pure_ends_iff] at ends
    obtain ⟨_, rfl⟩ := ends
    exact ⟨_, Files.lacks_nothing now, nofun, fun _ place cleaned => by simp [IsCleaned, reaches] at cleaned⟩
  | true =>
    rw [reaches, if_pos rfl, Work.noted_bind_ends_iff] at ends
    obtain ⟨lost, lacks, swept, all⟩ := Files.lacks_removeTree files (Path.join directory name)
    rw [Work.removeTree_ends ends] at lacks
    refine ⟨lost, lacks, fun place isLost => ⟨reaches, swept place isLost⟩, ?_⟩
    rintro rfl place ⟨_, sweeps⟩
    rw [Work.removeTree_ends_ok_iff.mp ends] at all
    exact all rfl place sweeps

theorem files_of_cleanupOne {result : Except Failure Unit}
    (ends : (cleanupOne directory name).Ends files result now) :
    now = if files.reaches (Path.join directory name)
        then (files.removeTree (Path.join directory name)).2 else files := by
  rw [cleanupOne, Work.look_bind_ends_iff] at ends
  cases reaches : files.reaches (Path.join directory name) with
  | false =>
    rw [reaches, if_neg Bool.false_ne_true, Work.pure_ends_iff] at ends
    exact ends.2
  | true =>
    rw [reaches, if_pos rfl, Work.noted_bind_ends_iff] at ends
    exact (Work.removeTree_ends ends).symm

theorem cleanupOne_of_not_reaches (nowhere : files.reaches (Path.join directory name) = false) :
    (cleanupOne directory name).Ends files (.ok ()) files := by
  rw [cleanupOne, Work.look_bind_ends_iff, nowhere, if_neg Bool.false_ne_true, Work.pure_ends_iff]
  exact ⟨rfl, rfl⟩

theorem cleanupOne_of_removeTree (reaches : files.reaches (Path.join directory name))
    (removed : files.removeTree (Path.join directory name) = (.ok (), now)) :
    (cleanupOne directory name).Ends files (.ok ()) now := by
  rw [cleanupOne, Work.look_bind_ends_iff, reaches, if_pos rfl, Work.noted_bind_ends_iff]
  exact Work.removeTree_ends_ok_iff.mpr removed

theorem cleanup_cons_ends {middle : Files} {result : Except Failure Unit}
    (first : (cleanupOne directory name).Ends files (.ok ()) middle)
    (rest : (cleanup directory names).Ends middle result now) :
    (cleanup directory (name :: names)).Ends files result now := by
  rw [cleanup_cons]
  exact Work.bind_ends_iff.mpr (Or.inl ⟨(), middle, first, rest⟩)

theorem cleanup_of_not_reaches (nowhere : ∀ name ∈ names, files.reaches (Path.join directory name) = false) :
    (cleanup directory names).Ends files (.ok ()) files := by
  induction names with
  | nil => exact Work.pure_ends_iff.mpr ⟨rfl, rfl⟩
  | cons name names ih =>
    exact cleanup_cons_ends (cleanupOne_of_not_reaches (nowhere name List.mem_cons_self))
      (ih fun other member => nowhere other (List.mem_cons_of_mem _ member))

/-- The files when the listed names have been removed from a directory. -/
def cleaned (files : Files) (directory : String) (names : List String) : Files :=
    ((cleanup directory names).run files).files

theorem cleaned_cons (ends : (cleanupOne directory name).Ends files (.ok ()) now) (names : List String) :
    cleaned files directory (name :: names) = cleaned now directory names :=
  (cleanup_cons_ends ends ((cleanup directory names).ends now)).2

/-- Cleaning up only loses entries. -/
theorem lacks_cleanup {result : Except Failure Unit} (ends : (cleanup directory names).Ends files result now) :
    ∃ lost, Files.Lacks now files lost := by
  induction names generalizing files with
  | nil =>
    obtain ⟨_, rfl⟩ := Work.pure_ends_iff.mp ends
    exact ⟨_, Files.lacks_nothing now⟩
  | cons name names ih =>
    rw [cleanup_cons] at ends
    rcases Work.bind_ends_iff.mp ends with ⟨_, middle, first, rest⟩ | ⟨failure, first, _⟩
    · obtain ⟨_, earlier, _⟩ := lacks_cleanupOne first
      obtain ⟨_, later⟩ := ih rest
      exact ⟨_, later.trans earlier⟩
    · obtain ⟨lost, lacks, _⟩ := lacks_cleanupOne first
      exact ⟨lost, lacks⟩

theorem look_of_cleanup {result : Except Failure Unit} (ends : (cleanup directory names).Ends files result now)
    (found : now.look path = .ok content) : files.look path = .ok content := by
  obtain ⟨_, lacks⟩ := lacks_cleanup ends
  exact lacks.look found

theorem not_reaches_of_not_leads (noLinks : files.NoLinks)
    (nowhere : files.leads files.home (Files.stepsAlong path) = false) :
    files.reaches path = false := by
  rw [Bool.eq_false_iff, ne_eq, Files.reaches_iff]
  rintro ⟨content, found⟩
  rw [((Files.look_iff_leads noLinks).mp found).2.1] at nowhere
  cases nowhere

theorem reaches_eq_leads (noLinks : files.NoLinks) (fine : Files.pathError? path = none) :
    files.reaches path = (files.leads files.home (Files.stepsAlong path) &&
        (files.content? (files.placeOf path)).isSome) := by
  rw [Bool.eq_iff_iff, Files.reaches_iff, Bool.and_eq_true, Option.isSome_iff_exists]
  simp only [Files.look_iff_leads noLinks, fine, true_and, exists_and_left]

/-- What is cleared for a name is inside of the place that its path has, but for the directory at that place. -/
theorem IsCleaned.isInside (noLinks : files.NoLinks) (cleaned : IsCleaned files directory name place) :
    Files.isInside place (files.placeOf (Path.join directory name)) ∨ files.content? place = some .directory := by
  cases cleaned.2 with
  | link own =>
    rw [Files.ownLink?_eq_none noLinks] at own
    cases own
  | inside _ reached isInside =>
    cases Files.reach_eq_placeOf noLinks reached
    exact Or.inl isInside
  | top _ _ stands => exact Or.inr stands

/-- Cleaning up changes no file that is not inside of the place of one of the names. -/
theorem bytesAt?_cleanup {result : Except Failure Unit} (noLinks : files.NoLinks)
    (ends : (cleanup directory names).Ends files result now)
    (away : ∀ name ∈ names, ¬Files.isInside place (files.placeOf (Path.join directory name))) :
    now.bytesAt? place = files.bytesAt? place := by
  induction names generalizing files with
  | nil =>
    obtain ⟨_, rfl⟩ := Work.pure_ends_iff.mp ends
    rfl
  | cons name names ih =>
    have first {result : Except Failure Unit} {middle : Files}
      (ends : (cleanupOne directory name).Ends files result middle) :
        middle.bytesAt? place = files.bytesAt? place ∧ middle.NoLinks ∧ middle.home = files.home := by
      obtain ⟨lost, lacks, onlyThese, _⟩ := lacks_cleanupOne ends
      refine ⟨?_, noLinks.of_lacks lacks, lacks.home⟩
      by_cases isLost : lost place
      · rcases (onlyThese place isLost).isInside noLinks with isInside | isDirectory
        · exact absurd isInside (away name List.mem_cons_self)
        · rw [Files.bytesAt?, lacks.gone place isLost, Files.bytesAt?, isDirectory]
      · exact Files.bytesAt?_congr (lacks.kept place isLost)
    rw [cleanup_cons] at ends
    rcases Work.bind_ends_iff.mp ends with ⟨_, middle, begins, rest⟩ | ⟨failure, begins, _⟩
    · obtain ⟨same, noLinks', home⟩ := first begins
      rw [← same]
      -- the paths of the other names still have the places that they have had
      refine ih noLinks' rest fun other member => ?_
      rw [Files.placeOf, home]
      exact away other (List.mem_cons_of_mem _ member)
    · exact (first begins).1

end ModuleBundler.Project
