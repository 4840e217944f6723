import ModuleBundler.Proofs.Files.Plain
import ModuleBundler.Proofs.Files.Removal

namespace ModuleBundler

namespace Path

/-- Whether a path goes down from where it begins: but for the steps that stay, it is a name or more. -/
def GoesDown (path : String) : Prop := ∃ names, names ≠ [] ∧ (allSteps path).filter (· ≠ .here) = names.map .name

theorem IsName.goesDown {name : String} (isName : IsName name) : GoesDown name :=
  ⟨[name], List.cons_ne_nil _ _, by rw [isName.allSteps]; rfl⟩

theorem GoesDown.isAbsolute {path : String} (down : GoesDown path) : isAbsolute path = false := by
  obtain ⟨names, _, eq⟩ := down
  rw [Bool.eq_false_iff]
  intro absolute
  have root : Step.root ∈ (allSteps path).filter (· ≠ .here) := by
    rw [allSteps_eq, if_pos absolute]
    exact List.mem_cons_self
  rw [eq, List.mem_map] at root
  obtain ⟨_, _, no⟩ := root
  cases no

end Path

namespace Files

variable {files middle now : Files} {place outer : Location} {path : String} {lost lost' : Location → Prop}

theorem Lacks.congr (lacks : Lacks now files lost) (same : ∀ place, lost place ↔ lost' place) :
    Lacks now files lost' where
  home := lacks.home
  gone place isLost := lacks.gone place ((same place).mpr isLost)
  kept place notLost := lacks.kept place fun isLost => notLost ((same place).mp isLost)

theorem lastStep_eq_ok_iff {step : Option Path.Step} (noLinks : files.NoLinks) :
    files.lastStep path = .ok (place, step) ↔
    files.leads files.home (Path.allSteps path).dropLast ∧
      place = Path.follow files.home (Path.allSteps path).dropLast ∧
      (Path.allSteps path).getLast? = step := by
  constructor
  · intro stepped
    obtain ⟨left, arrives, last⟩ := lastStep_eq_ok stepped
    obtain ⟨through, same⟩ := (arrives_iff_leads noLinks).mp arrives
    exact ⟨through, (Prod.mk.inj same).1, last⟩
  · rintro ⟨through, rfl, rfl⟩
    rw [lastStep, walk_eq_ok_iff.mpr ((arrives_iff_leads noLinks).mpr ⟨through, rfl⟩)]
    rfl

/-- Whether a path still names the directory that it leads to when all that is inside has gone: its last step is a
name, and the steps before do not lead through the directory. -/
def NamesTop (files : Files) (path : String) : Prop :=
  (∃ text, (Path.allSteps path).getLast? = some (.name text)) ∧
    (files.clear (files.placeOf path)).leads files.home (Path.allSteps path).dropLast

/-- The removal of a directory takes what is inside, and the directory too if the path still names it then. -/
theorem sweeps_iff (noLinks : files.NoLinks) (found : files.look path = .ok .directory) :
    files.Sweeps path place ↔ isInside place (files.placeOf path) ∨ place = files.placeOf path ∧
        files.NamesTop path := by
  obtain ⟨top, left, reached, stands⟩ := look_eq_ok_iff.mp found
  cases reach_eq_placeOf noLinks reached
  rw [sweeps_iff_of_reach (ownLink?_eq_none noLinks path) reached]
  simp only [lastStep_eq_ok_iff (noLinks.clear _)]
  refine or_congr_right (and_congr_right fun _ => ?_)
  constructor
  · rintro ⟨_, text, above, _, through, _, last⟩
    exact ⟨⟨text, last⟩, through⟩
  · rintro ⟨⟨text, last⟩, through⟩
    exact ⟨stands, text, _, follow_getLast? _ last, through, rfl, last⟩

/-- Also when the directory itself cannot be removed, all that is inside has gone. -/
theorem lacks_removeTree_of_directory (noLinks : files.NoLinks) (found : files.look path = .ok .directory) :
    Lacks (files.removeTree path).2 files (files.Sweeps path) := by
  obtain ⟨top, left, reached, stands⟩ := look_eq_ok_iff.mp found
  obtain ⟨fine, _⟩ := reach_eq_ok_iff.mp reached
  have noLink := ownLink?_eq_none noLinks path
  obtain ⟨lost, lacks, swept, all⟩ := lacks_removeTree files path
  cases emptied : (files.clear top).removeEmptied path with
  | ok rest =>
    refine lacks.congr fun place => ⟨swept place, all ?_ place⟩
    simp only [removeTree, fine, noLink, reached, stands, emptied]
  | error cause =>
    have removed : (files.removeTree path).2 = files.clear top := by
      simp only [removeTree, fine, noLink, reached, stands, emptied]
    rw [removed]
    refine (lacks_clear files top).congr fun place => ?_
    rw [sweeps_iff_of_reach noLink reached, or_iff_left]
    -- a directory that the path still names would have been removed
    rintro ⟨_, _, text, above, rfl, stepped⟩
    have still : (files.clear (text :: above)).content? (text :: above) = some .directory := by
      rw [content?_clear, not_isInside_self, if_neg Bool.false_ne_true, stands]
    simp only [removeEmptied, stepped, still] at emptied
    cases emptied

theorem removeTree_of_no_directory (noLinks : files.NoLinks) (other : files.look path ≠ .ok .directory) :
    (files.removeTree path).2 = files := by
  rw [removeTree, ownLink?_eq_none noLinks]
  split
  · rfl
  · next own => cases own
  · split
    · rfl
    · next top left reached =>
      split
      · next stands => exact absurd (look_eq_ok_iff.mpr ⟨_, _, reached, stands⟩) other
      · rfl

/-- Whether all that is not inside of a place is as before, the place itself included. -/
structure SparesOutside (now files : Files) (outer : Location) : Prop where
  unchanged : ∀ place, ¬isInside place outer → now.content? place = files.content? place
  stays : (files.content? outer).isSome → (now.content? outer).isSome

theorem Lacks.spares_iff (lacks : Lacks now files lost) : SparesOutside now files outer ↔
    ∀ place, lost place → (files.content? place).isSome → isInside place outer := by
  constructor
  · intro spares place isLost stands
    by_contra outside
    rw [← spares.unchanged place outside, lacks.gone place isLost] at stands
    cases stands
  · intro inside
    have unchanged (place : Location) (outside : ¬isInside place outer) :
        now.content? place = files.content? place := by
      by_cases isLost : lost place
      · rw [lacks.gone place isLost, eq_comm, ← Option.not_isSome_iff_eq_none]
        exact fun stands => outside (inside place isLost stands)
      · exact lacks.kept place isLost
    exact ⟨unchanged, fun stands => by rwa [unchanged outer (by simp [not_isInside_self])]⟩

/-- Of two losses, one after the other, each has to spare what is outside. -/
theorem Lacks.spares_trans_iff (later : Lacks now middle lost) (earlier : Lacks middle files lost') :
    SparesOutside now files outer ↔ SparesOutside middle files outer ∧ SparesOutside now middle outer := by
  rw [(later.trans earlier).spares_iff, earlier.spares_iff, later.spares_iff]
  constructor
  · refine fun inside => ⟨fun place isLost => inside place (Or.inr isLost), fun place isLost stands => ?_⟩
    obtain ⟨content, here⟩ := Option.isSome_iff_exists.mp stands
    exact inside place (Or.inl isLost) (by rw [(earlier.content_of here).2, Option.isSome_some])
  · rintro ⟨first, second⟩ place isLost stands
    by_cases before : lost' place
    · exact first place before stands
    · exact second place (isLost.resolve_right before) (by rwa [earlier.kept place before])

/-- Whether the removal of what a path leads to takes nothing that is not inside of a place: a directory there, or
a directory that the path does not name and that has nothing else in it. -/
def RemovesOnlyInside (files : Files) (path : String) (outer : Location) : Prop :=
  files.look path = .ok .directory → isInside (files.placeOf path) outer ∨ ¬files.NamesTop path ∧
    ∀ place, isInside place (files.placeOf path) → (files.content? place).isSome → isInside place outer

theorem isInside_trans {inner : Location} (first : isInside inner place) (second : isInside place outer) :
    isInside inner outer := by
  simp only [isInside, Bool.and_eq_true, List.isSuffixOf_iff_suffix, decide_eq_true_eq] at first second ⊢
  have shorter := second.1.length_le
  have shorter' := first.1.length_le
  exact ⟨second.1.trans first.1, by omega⟩

theorem isInside_append {names : List String} (some : names ≠ []) (place : Location) :
    isInside (names ++ place) place := by
  have longer := List.length_pos_iff.mpr some
  simp only [isInside, Bool.and_eq_true, List.isSuffixOf_iff_suffix, decide_eq_true_eq, List.length_append]
  exact ⟨List.suffix_append names place, by omega⟩

/-- A path that goes down from a directory has its place inside. -/
theorem isInside_placeOf_join {name : String} (files : Files) (directory : String) (down : Path.GoesDown name) :
    isInside (files.placeOf (Path.join directory name)) (files.placeOf directory) := by
  have relative := down.isAbsolute
  obtain ⟨names, some, eq⟩ := down
  rw [placeOf, Path.allSteps_join directory relative, Path.follow_append, ← Path.follow_filter, eq, Path.follow_names]
  exact isInside_append (by simpa using some) _

theorem removesOnlyInside_iff (noLinks : files.NoLinks) (found : files.look path = .ok .directory) :
    files.RemovesOnlyInside path outer ↔ ∀ place, files.Sweeps path place → (files.content? place).isSome →
        isInside place outer := by
  have stands : (files.content? (files.placeOf path)).isSome := by
    rw [((look_iff_leads noLinks).mp found).2.2, Option.isSome_some]
  simp only [sweeps_iff noLinks found]
  constructor
  · rintro only place swept here
    rcases only found with inside | ⟨unnamed, inside⟩
    · rcases swept with within | ⟨rfl, _⟩
      · exact isInside_trans within inside
      · exact inside
    · rcases swept with within | ⟨_, named⟩
      · exact inside place within here
      · exact absurd named unnamed
  · intro inside _
    by_cases named : files.NamesTop path
    · exact Or.inl (inside _ (Or.inr ⟨rfl, named⟩) stands)
    · exact Or.inr ⟨named, fun place within here => inside place (Or.inl within) here⟩

end Files

end ModuleBundler
