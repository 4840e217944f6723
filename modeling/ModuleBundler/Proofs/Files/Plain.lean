import ModuleBundler.Proofs.Files.Writes
import ModuleBundler.Proofs.Path

namespace ModuleBundler

namespace Path

/-- Where steps lead from a place, read off the steps alone. -/
def follow (place : Location) (steps : List Step) : Location := steps.foldl Step.next place

@[simp]
theorem follow_nil (place : Location) : follow place [] = place := rfl

@[simp]
theorem follow_cons (place : Location) (step : Step) (steps : List Step) :
    follow place (step :: steps) = follow (step.next place) steps := rfl

@[simp]
theorem follow_append (place : Location) (steps more : List Step) :
    follow place (steps ++ more) = follow (follow place steps) more :=
  List.foldl_append

theorem follow_filter (place : Location) (steps : List Step) :
    follow place (steps.filter (· ≠ .here)) = follow place steps := by
  induction steps generalizing place with
  | nil => rfl
  | cons step steps ih =>
    by_cases stays : step = .here
    · subst stays
      exact ih place
    · rw [List.filter_cons_of_pos (by simpa using stays)]
      exact ih _

theorem follow_names (place : Location) (names : List String) :
    follow place (names.map .name) = names.reverse ++ place := by
  induction names generalizing place with
  | nil => rfl
  | cons name names ih =>
    rw [List.map_cons, follow_cons, ih, List.reverse_cons, List.append_assoc]
    rfl

end Path

namespace Files

variable {files : Files} {links : Nat} {place found : Location} {path : String} {steps : List Path.Step}
  {arrived : Location × Nat} {content : Content}

/-- The place of a path, with the steps that stay and those that go up resolved without a look at what is there. -/
def placeOf (files : Files) (path : String) : Location := Path.follow files.home (Path.allSteps path)

theorem placeOf_eq_steps (files : Files) (path : String) :
    files.placeOf path = Path.follow files.home (Path.steps path) := by
  rw [placeOf, Path.steps_eq]
  cases Path.allSteps path with
  | nil => rfl
  | cons first rest =>
    rw [List.head?_cons, List.tail_cons, Option.toList_some, Path.follow_append, Path.follow_filter]
    rfl

/-- Whether each entry of a tree has a name that a path can name it by. -/
def HasNames (files : Files) : Prop := ∀ name above content,
    files.content? (name :: above) = some content → Path.IsName name

theorem hasNames_of_entries (entries : ∀ entry ∈ files.entries.toList, ∀ name above,
    entry.location = name :: above → Path.IsName name) :
    files.HasNames :=
  fun name above _ here => entries _ (entry_of_content? here) name above rfl

/-- Whether there are no links in a tree. -/
def NoLinks (files : Files) : Prop := ∀ place target, files.content? place ≠ some (.link target)

/-- A tree of files as a file system has it, but for links: each entry has a name that a path can name it by. -/
structure IsPlain (files : Files) : Prop where
  noLinks : files.NoLinks
  isName : ∀ name above content, files.content? (name :: above) = some content → Path.IsName name

theorem isPlain_of_entries (entries : ∀ entry ∈ files.entries.toList,
    (∀ target, entry.content ≠ .link target) ∧ ∀ name above, entry.location = name :: above → Path.IsName name) :
        files.IsPlain where
  noLinks place target link := by
    cases place with
    | nil => cases link
    | cons name above => exact (entries _ (entry_of_content? link)).1 target rfl
  isName := hasNames_of_entries fun entry member => (entries entry member).2

theorem follow_stepsAlong (place : Location) (path : String) :
    Path.follow place (stepsAlong path) = Path.follow place (Path.allSteps path) := by
  unfold stepsAlong
  split
  · rw [Path.follow_append]
    rfl
  · rfl

theorem Arrives.eq_follow (noLinks : files.NoLinks) (arrives : files.Arrives links place steps arrived) :
    arrived = (Path.follow place steps, links) := by
  induction arrives with
  | stays => rfl
  | moves _ _ _ ih => exact ih
  | follows _ _ link => exact absurd link (noLinks _ _)
  | enters _ _ _ _ _ ih => exact ih

/-- Without links, a path leads to its place or nowhere. -/
theorem reach_eq_placeOf (noLinks : files.NoLinks) (reached : files.reach path = .ok arrived) :
    arrived = (files.placeOf path, mostLinks) := by
  rw [(reach_eq_ok_iff.mp reached).2.eq_follow noLinks, follow_stepsAlong, placeOf]

/-- Whether a walk along some steps comes to its end, where nothing is a link. -/
def leads (files : Files) (place : Location) : List Path.Step → Bool
  | [] => true
  | step :: steps =>
    (files.content? place matches some .directory) &&
      (match step with
        | .name text => decide (text.utf8ByteSize ≤ longestName) && (files.content? (text :: place)).isSome
        | _ => true) && files.leads (step.next place) steps

theorem arrives_iff_leads (noLinks : files.NoLinks) :
    files.Arrives links place steps arrived ↔
        files.leads place steps ∧ arrived = (Path.follow place steps, links) := by
  constructor
  · intro arrives
    refine ⟨?_, arrives.eq_follow noLinks⟩
    induction arrives with
    | stays => rfl
    | @moves _ _ step _ _ here unnamed _ ih =>
      cases step with
      | name text => exact absurd rfl (unnamed text)
      | root | here | up => simp [leads, here, ih]
    | follows _ _ link => exact absurd link (noLinks _ _)
    | enters here short next _ _ ih => simp [leads, here, short, next, ih, Path.Step.next]
  · rintro ⟨through, rfl⟩
    induction steps generalizing place with
    | nil => exact .stays
    | cons step steps ih =>
      simp only [leads, Bool.and_eq_true] at through
      obtain ⟨⟨isDirectory, stepped⟩, rest⟩ := through
      have here : files.content? place = some .directory := by
        split at isDirectory
        · assumption
        · cases isDirectory
      cases step with
      | name text =>
        simp only [Bool.and_eq_true, decide_eq_true_eq] at stepped
        obtain ⟨content, next⟩ := Option.isSome_iff_exists.mp stepped.2
        refine .enters here stepped.1 next (fun target link => ?_) (ih rest)
        subst link
        exact noLinks _ _ next
      | root | here | up => exact .moves here (by simp) (ih rest)

theorem reach_iff_leads (noLinks : files.NoLinks) : files.reach path = .ok arrived ↔
    pathError? path = none ∧ files.leads files.home (stepsAlong path) ∧
        arrived = (files.placeOf path, mostLinks) := by
  rw [reach_eq_ok_iff, arrives_iff_leads noLinks, follow_stepsAlong, placeOf]

theorem look_iff_leads (noLinks : files.NoLinks) : files.look path = .ok content ↔
    pathError? path = none ∧ files.leads files.home (stepsAlong path) ∧
        files.content? (files.placeOf path) = some content := by
  simp only [look_eq_ok_iff, reach_iff_leads noLinks, Prod.mk.injEq]
  constructor
  · rintro ⟨_, _, ⟨fine, through, rfl, rfl⟩, here⟩
    exact ⟨fine, through, here⟩
  · rintro ⟨fine, through, here⟩
    exact ⟨_, _, ⟨fine, through, rfl, rfl⟩, here⟩

theorem readText_of_leads {text : String} (noLinks : files.NoLinks) (fine : pathError? path = none)
    (through : files.leads files.home (stepsAlong path)) (placed : files.placeOf path = place)
    (here : files.content? place = some (.file text.toUTF8)) : files.readText path = .ok text :=
  readText_eq_ok_iff.mpr ((look_iff_leads noLinks).mpr ⟨fine, through, placed ▸ here⟩)

theorem SameOutline.noLinks {now : Files} (same : SameOutline now files) (noLinks : files.NoLinks) : now.NoLinks := by
  intro place target link
  exact noLinks place target (same.symm.isWithin.content_eq link nofun)

theorem SameOutline.placeOf_eq {now : Files} (same : SameOutline now files) (path : String) :
    now.placeOf path = files.placeOf path := by
  rw [placeOf, same.home, placeOf]

/-- Where the outline is the same, a path leads to the same if the same stands at its place. -/
theorem SameOutline.look_iff {now : Files} (same : SameOutline now files) (noLinks : files.NoLinks)
    (here : now.content? (files.placeOf path) = files.content? (files.placeOf path)) :
    now.look path = .ok content ↔ files.look path = .ok content := by
  simp only [look_eq_ok_iff, same.reach_iff]
  constructor
  · rintro ⟨place, left, reached, stands⟩
    cases reach_eq_placeOf noLinks reached
    exact ⟨_, _, reached, here ▸ stands⟩
  · rintro ⟨place, left, reached, stands⟩
    cases reach_eq_placeOf noLinks reached
    exact ⟨_, _, reached, here.trans stands⟩

/-- The bytes of the file at a place, if it is one. -/
def bytesAt? (files : Files) (place : Location) : Option ByteArray :=
  match files.content? place with
  | some (.file bytes) => some bytes
  | _ => none

theorem bytesAt?_eq_some_iff {bytes : ByteArray} :
    files.bytesAt? place = some bytes ↔ files.content? place = some (.file bytes) := by
  unfold bytesAt?
  split
  · next old here => rw [here, Option.some.injEq, Option.some.injEq, Content.file.injEq]
  · next other => simpa using other bytes

theorem bytesAt?_congr {now : Files} (same : now.content? place = files.content? place) :
    now.bytesAt? place = files.bytesAt? place := by
  rw [bytesAt?, same, bytesAt?]

/-- What stands in a directory of the place that a path leads to has the place that the path with
its name leads to. -/
theorem placeOf_join {name : String} (files : Files) (path : String) (isName : Path.IsName name) :
    files.placeOf (Path.join path name) = name :: files.placeOf path := by
  rw [placeOf, Path.allSteps_join path isName.isAbsolute, isName.allSteps, Path.follow_append]
  rfl

variable {text : String} {bytes : ByteArray}

theorem follow_getLast? (place : Location) (last : steps.getLast? = some (.name text)) :
    Path.follow place steps = text :: Path.follow place steps.dropLast := by
  rw [← List.dropLast_append_getLast? _ last, Path.follow_append, List.dropLast_concat]
  rfl

/-- A path whose last step is a name writes the file with that name in the directory that it leads to before. -/
theorem write_of_leads (noLinks : files.NoLinks) (fine : pathError? path = none)
    (noSlash : Path.endsInSlash path = false)
    (last : (Path.allSteps path).getLast? = some (.name text)) (short : text.utf8ByteSize ≤ longestName)
    (through : files.leads files.home (Path.allSteps path).dropLast)
    (above : files.content? (Path.follow files.home (Path.allSteps path).dropLast) = some .directory)
    (noDirectory : files.content? (files.placeOf path) ≠ some .directory) (bytes : ByteArray) :
    files.write path bytes = .ok (files.put (files.placeOf path) (.file bytes)) := by
  have walked : files.walk mostLinks files.home (Path.allSteps path).dropLast = .ok (_, mostLinks) :=
    walk_eq_ok_iff.mpr ((arrives_iff_leads noLinks).mpr ⟨through, rfl⟩)
  have placed : files.writePlace mostLinks files.home (Path.allSteps path) false = .ok (files.placeOf path) := by
    rw [placeOf, follow_getLast? _ last] at noDirectory ⊢
    rw [writePlace]
    split
    · next failed => cases walked.symm.trans failed
    · next there left walked' =>
      cases walked.symm.trans walked'
      simp only [above, last, if_neg (Nat.not_lt.mpr short)]
      cases stands : files.content? (text :: Path.follow files.home (Path.allSteps path).dropLast) with
      | none => rfl
      | some content =>
        cases content with
        | directory => exact absurd stands noDirectory
        | link target => exact absurd stands (noLinks _ _)
        | file => rfl
  rw [write, fine, noSlash, placed]
  rfl

theorem ownLink?_eq_none (noLinks : files.NoLinks) (path : String) : files.ownLink? path = none := by
  rw [Option.eq_none_iff_forall_ne_some]
  intro place own
  unfold ownLink? at own
  split at own
  · split at own
    · next target stands => exact noLinks _ _ stands
    · cases own
  · cases own

theorem NoLinks.put (noLinks : files.NoLinks) (name : String) (above : Location) (bytes : ByteArray) :
    (files.put (name :: above) (.file bytes)).NoLinks := by
  intro place target link
  rw [content?_put] at link
  split at link
  · cases link
  · exact noLinks place target link

theorem NoLinks.of_lacks {now : Files} {lost : Location → Prop} (noLinks : files.NoLinks)
    (lacks : Lacks now files lost) : now.NoLinks :=
  fun place target link => noLinks place target (lacks.content_of link).2

theorem NoLinks.clear (noLinks : files.NoLinks) (outer : Location) : (files.clear outer).NoLinks :=
  noLinks.of_lacks (lacks_clear files outer)

/-- A path whose last step is a name removes the directory that it leads to and all that is inside. -/
theorem removeTree_of_leads (noLinks : files.NoLinks) (fine : pathError? path = none)
    (last : (Path.allSteps path).getLast? = some (.name text))
    (through : files.leads files.home (stepsAlong path))
    (here : files.content? (files.placeOf path) = some .directory)
    (still : (files.clear (files.placeOf path)).leads files.home (Path.allSteps path).dropLast) :
    files.removeTree path = (.ok (), (files.clear (files.placeOf path)).remove (files.placeOf path)) := by
  have reached := (reach_iff_leads noLinks).mpr ⟨fine, through, rfl⟩
  have walked : (files.clear (files.placeOf path)).walk mostLinks files.home (Path.allSteps path).dropLast =
      .ok (_, mostLinks) :=
    walk_eq_ok_iff.mpr ((arrives_iff_leads (noLinks.clear (files.placeOf path))).mpr ⟨still, rfl⟩)
  have place_eq : files.placeOf path = text :: Path.follow files.home (Path.allSteps path).dropLast :=
    follow_getLast? _ last
  have stands : (files.clear (files.placeOf path)).content? (files.placeOf path) = some .directory := by
    rw [content?_clear, if_neg (by simp [isInside]), here]
  have emptied : (files.clear (files.placeOf path)).removeEmptied path =
      .ok ((files.clear (files.placeOf path)).remove (files.placeOf path)) := by
    have stepped : (files.clear (files.placeOf path)).lastStep path =
        .ok (Path.follow files.home (Path.allSteps path).dropLast, some (.name text)) := by
      rw [lastStep, ← last]
      exact congrArg _ walked
    rw [removeEmptied, stepped]
    simp only [← place_eq, stands]
  rw [removeTree, fine, ownLink?_eq_none noLinks, reached]
  simp only [here, emptied]

/-- A tree with one module. Paths begin in the directory `w`. -/
def oneModule : Files where
  entries := ⟨[⟨["w"], .directory⟩, ⟨["dist", "w"], .directory⟩, ⟨["core", "dist", "w"], .directory⟩,
    ⟨["main.js", "core", "dist", "w"], .file "main();".toUTF8⟩], by decide⟩
  home := ["w"]

theorem oneModule_isPlain : oneModule.IsPlain := by
  refine isPlain_of_entries fun entry member => ?_
  simp only [oneModule, List.mem_cons, List.not_mem_nil, or_false] at member
  rcases member with rfl | rfl | rfl | rfl <;> refine ⟨by simp, fun name above same => ?_⟩ <;> cases same <;> decide

end Files

end ModuleBundler
