import ModuleBundler.Proofs.Files.Plain
import ModuleBundler.Proofs.Path
import ModuleBundler.Proofs.Work
import ModuleBundler.Scan

namespace ModuleBundler

namespace Files

variable {files : Files} {place : Location} {name : String}

theorem namesIn_nodup (files : Files) (place : Location) : (files.namesIn place).Nodup := by
  rw [namesIn, List.Nodup, List.pairwise_filterMap]
  refine (List.pairwise_map.mp files.entries.keys_nodup).imp fun
    {one other} differ name inOne name' inOther same => differ ?_
  split at inOne
  · next isOne =>
    split at inOther
    · next isOther =>
      rw [Option.ite_none_right_eq_some, Option.some.injEq] at inOne inOther
      rw [isOne, isOther, inOne.1, inOne.2, inOther.1, inOther.2, same]
    · cases inOther
  · cases inOne

theorem content?_of_mem_namesIn (member : name ∈ files.namesIn place) :
    ∃ content, files.content? (name :: place) = some content := by
  obtain ⟨⟨location, content⟩, isEntry, named⟩ := List.mem_filterMap.mp member
  refine ⟨content, ?_⟩
  cases location with
  | nil => cases named
  | cons first above =>
    obtain ⟨rfl, same⟩ := Option.ite_none_right_eq_some.mp named
    cases same
    rw [content?_cons, KeyedList.get?_eq_some_iff.mpr ⟨isEntry, rfl⟩]
    rfl

theorem HasNames.isName (named : files.HasNames) (member : name ∈ files.namesIn place) : Path.IsName name := by
  obtain ⟨content, here⟩ := content?_of_mem_namesIn member
  exact named name place content here

end Files

namespace Scan

variable {scan : Scan} {files : Files} {links : Nat} {place : Location} {path name : String} {names : List String}
  {found rest : List SourceFile} {file : SourceFile}

/-- What is found by some names in the directory at a place, with so many links left to follow. -/
inductive Collects (scan : Scan) (files : Files) :
    (links : Nat) → Location → String → List String → List SourceFile → Prop
  | done {links : Nat} {place : Location} {path : String} : Collects scan files links place path [] []
  | excluded {links : Nat} {place : Location} {path name : String} {names : List String} {rest : List SourceFile} :
      scan.isExcluded (scan.fileAt path name).relativePath = true →
      Collects scan files links place path names rest → Collects scan files links place path (name :: names) rest
  | directory {links left : Nat} {place there : Location} {path name : String} {names : List String}
      {inner rest : List SourceFile} :
      scan.isExcluded (scan.fileAt path name).relativePath = false → Files.pathError? (Path.join path name) = none →
      files.walk links place [.name name] = .ok (there, left) → files.content? there = some .directory →
      Collects scan files left there (Path.join path name) (files.namesIn there) inner →
      Collects scan files links place path names rest →
        Collects scan files links place path (name :: names) (inner ++ rest)
  | file {links left : Nat} {place there : Location} {path name : String} {names : List String} {content : Content}
      {rest : List SourceFile} :
      scan.isExcluded (scan.fileAt path name).relativePath = false → Files.pathError? (Path.join path name) = none →
      files.walk links place [.name name] = .ok (there, left) → files.content? there = some content →
        content ≠ .directory →
      Collects scan files links place path names rest →
      Collects scan files links place path (name :: names)
        (if scan.isWanted name then scan.fileAt path name :: rest else rest)

/-- What is found by some names in the directory at a place, where nothing is a link. -/
inductive Finds (scan : Scan) (files : Files) : Location → String → List String → List SourceFile → Prop
  | done {place : Location} {path : String} : Finds scan files place path [] []
  | excluded {place : Location} {path name : String} {names : List String} {rest : List SourceFile} :
      scan.isExcluded (scan.fileAt path name).relativePath = true →
      Finds scan files place path names rest → Finds scan files place path (name :: names) rest
  | directory {place : Location} {path name : String} {names : List String} {inner rest : List SourceFile} :
      scan.isExcluded (scan.fileAt path name).relativePath = false → Files.pathError? (Path.join path name) = none →
      files.leads place [.name name] → files.content? (name :: place) = some .directory →
      Finds scan files (name :: place) (Path.join path name) (files.namesIn (name :: place)) inner →
      Finds scan files place path names rest → Finds scan files place path (name :: names) (inner ++ rest)
  | file {place : Location} {path name : String} {names : List String} {bytes : ByteArray} {rest : List SourceFile} :
      scan.isExcluded (scan.fileAt path name).relativePath = false → Files.pathError? (Path.join path name) = none →
      files.leads place [.name name] → files.content? (name :: place) = some (.file bytes) →
      Finds scan files place path names rest →
      Finds scan files place path (name :: names) (if scan.isWanted name then scan.fileAt path name :: rest else rest)

theorem walk_name_eq_ok_iff (noLinks : files.NoLinks) {there : Location × Nat} :
    files.walk links place [.name name] = .ok there ↔
        files.leads place [.name name] ∧ there = (name :: place, links) := by
  rw [Files.walk_eq_ok_iff, Files.arrives_iff_leads noLinks]
  rfl

/-- What a scan does about a name that it can go to. -/
theorem below_name {there : Location} {left : Nat}
    (included : scan.isExcluded (scan.fileAt path name).relativePath = false)
    (fine : Files.pathError? (Path.join path name) = none)
    (walked : files.walk links place [.name name] = .ok (there, left)) :
    scan.below files links place path (name :: names) =
      match files.content? there with
      | none => .fail (.file .examine (Path.join path name) .notFound)
      | some .directory => do
        let inner ← scan.below files left there (Path.join path name) (files.namesIn there)
        return inner ++ (← scan.below files links place path names)
      | some _ => do
        let others ← scan.below files links place path names
        return if scan.isWanted name then scan.fileAt path name :: others else others := by
  rw [below, if_neg (by simp [included])]
  split
  · next failed =>
    rw [show (scan.fileAt path name).location = Path.join path name from rfl, fine] at failed
    cases failed
  · split
    · next failed =>
      rw [walked] at failed
      cases failed
    · next there' left' walked' =>
      cases walked.symm.trans walked'
      cases files.content? there with
      | none => rfl
      | some content => cases content <;> rfl

theorem below_eq_ok_iff_collects : (scan.below files links place path names).result = .ok found ↔
    Collects scan files links place path names found := by
  constructor
  · intro result
    fun_induction below scan files links place path names generalizing found with
    | case1 =>
      cases result
      exact .done
    | case2 _ _ _ _ _ _ isExcluded =>
      rename_i ih
      exact .excluded isExcluded (ih result)
    | case3 | case4 | case5 => cases result
    | case6 _ _ _ _ _ _ included there left walked here fine ihInner =>
      rename_i ihRest
      obtain ⟨inner, isInner, result⟩ := Attempt.bind_eq_ok_iff.mp result
      obtain ⟨rest, isRest, result⟩ := Attempt.bind_eq_ok_iff.mp result
      cases result
      have fine := Option.eq_none_iff_forall_ne_some.mpr fine
      exact .directory (by simpa using included) fine walked here (ihInner isInner) (ihRest isRest)
    | case7 _ _ _ _ _ _ included there left walked _ here fine
    | case8 _ _ _ _ _ _ included there left walked _ here fine =>
      rename_i ih
      obtain ⟨rest, isRest, result⟩ := Attempt.bind_eq_ok_iff.mp result
      cases result
      exact .file (by simpa using included) (Option.eq_none_iff_forall_ne_some.mpr fine) walked here nofun (ih isRest)
  · intro collects
    induction collects with
    | done =>
      rw [below]
      rfl
    | excluded isExcluded _ ih =>
      rw [below, if_pos isExcluded]
      exact ih
    | directory included fine walked here _ _ ihInner ihRest =>
      rw [below_name included fine walked, here]
      exact Attempt.bind_eq_ok_iff.mpr ⟨_, ihInner, Attempt.bind_eq_ok_iff.mpr ⟨_, ihRest, rfl⟩⟩
    | @file _ _ _ _ _ _ _ content _ included fine walked here noDirectory _ ih =>
      rw [below_name included fine walked, here]
      cases content with
      | directory => exact absurd rfl noDirectory
      | file | link => exact Attempt.bind_eq_ok_iff.mpr ⟨_, ih, rfl⟩

theorem Collects.isWanted (collects : Collects scan files links place path names found) (member : file ∈ found) :
    scan.isWanted file.fileName = true := by
  induction collects with
  | done => cases member
  | excluded _ _ ih => exact ih member
  | directory _ _ _ _ _ _ ihInner ihRest => exact (List.mem_append.mp member).elim ihInner ihRest
  | file _ _ _ _ _ _ ih =>
    split at member
    · next wanted =>
      rcases List.mem_cons.mp member with rfl | later
      · exact wanted
      · exact ih later
    · exact ih member

/-- Each file that is found goes by names from the directory, through links as well. The first one is one of those
that are looked at. -/
theorem Collects.exists_names (collects : Collects scan files links place path names found) (named : files.HasNames)
    (areNames : ∀ name ∈ names, Path.IsName name) (member : file ∈ found) : ∃ directories name,
      file = scan.fileAt (directories.foldl Path.join path) name ∧
        (∀ text ∈ directories ++ [name], Path.IsName text) ∧
      ∃ first ∈ names, [first] <+: directories ++ [name] := by
  induction collects with
  | done => cases member
  | excluded _ _ ih =>
    obtain ⟨directories, last, eq, areNames, first, inNames, begins⟩ := ih (List.forall_mem_cons.mp areNames).2 member
    exact ⟨directories, last, eq, areNames, first, List.mem_cons_of_mem _ inNames, begins⟩
  | @directory _ _ _ _ _ name _ _ _ _ _ _ _ _ _ ihInner ihRest =>
    obtain ⟨isName, others⟩ := List.forall_mem_cons.mp areNames
    rcases List.mem_append.mp member with inInner | inRest
    · obtain ⟨directories, last, eq, areNames, _⟩ := ihInner (fun _ => named.isName) inInner
      exact ⟨name :: directories, last, eq, List.forall_mem_cons.mpr ⟨isName, areNames⟩, name,
        List.mem_cons_self, _, rfl⟩
    · obtain ⟨directories, last, eq, areNames, first, inNames, begins⟩ := ihRest others inRest
      exact ⟨directories, last, eq, areNames, first, List.mem_cons_of_mem _ inNames, begins⟩
  | @file _ _ _ _ path name _ _ rest _ _ _ _ _ _ ih =>
    obtain ⟨isName, others⟩ := List.forall_mem_cons.mp areNames
    have oneOf : file = scan.fileAt path name ∨ file ∈ rest := by
      split at member
      · exact List.mem_cons.mp member
      · exact Or.inr member
    rcases oneOf with rfl | inRest
    · exact ⟨[], name, rfl, by simpa using isName, name, List.mem_cons_self, List.prefix_refl _⟩
    · obtain ⟨directories, last, eq, areNames, first, inNames, begins⟩ := ih others inRest
      exact ⟨directories, last, eq, areNames, first, List.mem_cons_of_mem _ inNames, begins⟩

/-- A scan finds nothing where its path leads nowhere, and else what is found by the names in the directory that
it leads to. -/
theorem run_eq_ok_iff : (scan.run files path).result = .ok found ↔ files.reaches path = false ∧ found = [] ∨
    ∃ place left, files.reach path = .ok (place, left) ∧ files.content? place = some .directory ∧
      Collects scan files left place path (files.namesIn place) found := by
  constructor
  · intro result
    unfold run at result
    split at result
    · next failed =>
      cases result
      exact Or.inl ⟨by rw [Files.reaches, Files.look, failed]; rfl, rfl⟩
    · next reached =>
      split at result
      · next nothing =>
        cases result
        exact Or.inl ⟨by simp only [Files.reaches, Files.look, reached, nothing]; rfl, rfl⟩
      · exact Or.inr ⟨_, _, reached, ‹_›, below_eq_ok_iff_collects.mp result⟩
      · cases result
      · cases result
  · rintro (⟨nowhere, rfl⟩ | ⟨place, left, reached, here, collects⟩)
    · rw [Files.reaches, Files.look] at nowhere
      rw [run]
      split
      · rfl
      · next reached =>
        rw [reached] at nowhere
        cases here : files.content? _ with
        | none => rfl
        | some content =>
          simp only [here] at nowhere
          cases nowhere
    · rw [run, reached]
      simp only [here]
      exact below_eq_ok_iff_collects.mpr collects

/-- What is found has a wanted name, through links as well. -/
theorem isWanted_of_run (result : (scan.run files path).result = .ok found) (member : file ∈ found) :
    scan.isWanted file.fileName = true := by
  rcases run_eq_ok_iff.mp result with ⟨_, rfl⟩ | ⟨place, left, _, _, collects⟩
  · cases member
  · exact collects.isWanted member

/-- The path of a file begins in the directory that is scanned. -/
theorem relativePath_fileAt (nonempty : scan.base ≠ "") {directories : List String}
    (areNames : ∀ text ∈ directories ++ [name], Path.IsName text) :
    (scan.fileAt (directories.foldl Path.join scan.base) name).relativePath =
        "/".intercalate (directories ++ [name]) :=
  (Path.relativeTo_eq_iff nonempty areNames).mpr (Path.steps_join_foldl nonempty areNames)

theorem collects_iff_finds (noLinks : files.NoLinks) :
    Collects scan files links place path names found ↔ Finds scan files place path names found := by
  constructor
  · intro collects
    induction collects with
    | done => exact .done
    | excluded isExcluded _ ih => exact .excluded isExcluded ih
    | directory included fine walked here _ _ ihInner ihRest =>
      obtain ⟨through, same⟩ := (walk_name_eq_ok_iff noLinks).mp walked
      cases same
      exact .directory included fine through here ihInner ihRest
    | @file _ _ _ _ _ _ _ content _ included fine walked here noDirectory _ ih =>
      obtain ⟨through, same⟩ := (walk_name_eq_ok_iff noLinks).mp walked
      cases same
      cases content with
      | file => exact .file included fine through here ih
      | link => exact absurd here (noLinks _ _)
      | directory => exact absurd rfl noDirectory
  · intro finds
    induction finds generalizing links with
    | done => exact .done
    | excluded isExcluded _ ih => exact .excluded isExcluded ih
    | directory included fine through here _ _ ihInner ihRest =>
      exact .directory included fine ((walk_name_eq_ok_iff noLinks).mpr ⟨through, rfl⟩) here ihInner ihRest
    | file included fine through here _ ih =>
      exact .file included fine ((walk_name_eq_ok_iff noLinks).mpr ⟨through, rfl⟩) here nofun ih

/-- A scan that succeeds finds nothing, or what is found by the names in the directory that its path leads to. -/
theorem finds_of_run (noLinks : files.NoLinks) (result : (scan.run files path).result = .ok found) :
    found = [] ∨ (∃ left, files.reach path = .ok (files.placeOf path, left)) ∧
      Finds scan files (files.placeOf path) path (files.namesIn (files.placeOf path)) found := by
  rcases run_eq_ok_iff.mp result with ⟨_, none⟩ | ⟨place, left, reached, _, collects⟩
  · exact Or.inl none
  · cases Files.reach_eq_placeOf noLinks reached
    exact Or.inr ⟨⟨_, reached⟩, (collects_iff_finds noLinks).mp collects⟩

/-- Where a path does not lead, nothing is found. -/
theorem run_of_not_leads (noLinks : files.NoLinks)
    (nowhere : files.leads files.home (Files.stepsAlong path) = false) :
    (scan.run files path).result = .ok [] := by
  unfold run
  split
  · rfl
  · next reached =>
    rw [Files.reach_iff_leads noLinks, nowhere] at reached
    cases reached.2.1

theorem run_of_finds (noLinks : files.NoLinks) (fine : Files.pathError? path = none)
    (through : files.leads files.home (Files.stepsAlong path))
    (here : files.content? (files.placeOf path) = some .directory)
    (finds : Finds scan files (files.placeOf path) path (files.namesIn (files.placeOf path)) found) :
    (scan.run files path).result = .ok found := by
  have reached := (Files.reach_iff_leads noLinks).mpr ⟨fine, through, rfl⟩
  exact run_eq_ok_iff.mpr (Or.inr ⟨_, _, reached, here, (collects_iff_finds noLinks).mpr finds⟩)

/-- The module of the tree with one module is found by its path from the directory of the modules. -/
theorem run_oneModule : (run ⟨"./dist", [".js"], []⟩ .oneModule "./dist").result =
    .ok [⟨"./dist/core/main.js", "core/main.js", "main.js", "core"⟩] := by
  have noLinks := Files.oneModule_isPlain.noLinks
  have core : Files.oneModule.content? ["core", "dist", "w"] = some .directory := rfl
  have main : Files.oneModule.content? ["main.js", "core", "dist", "w"] = some (.file "main();".toUTF8) := rfl
  have inCore : Finds ⟨"./dist", [".js"], []⟩ .oneModule ["core", "dist", "w"] "./dist/core" ["main.js"]
      [⟨"./dist/core/main.js", "core/main.js", "main.js", "core"⟩] := by
    refine .file ?_ ?_ ?_ main .done <;> decide
  have inDist : Finds ⟨"./dist", [".js"], []⟩ .oneModule ["dist", "w"] "./dist" ["core"]
      [⟨"./dist/core/main.js", "core/main.js", "main.js", "core"⟩] := by
    have path : Path.join "./dist" "core" = "./dist/core" := by decide
    have names : Files.oneModule.namesIn ["core", "dist", "w"] = ["main.js"] := by decide
    rw [← path, ← names] at inCore
    exact .directory (by decide) (by decide) (by decide) core inCore .done
  exact run_of_finds noLinks (by decide) (by decide) rfl inDist

/-- A place is inside of one entry of a directory only. -/
theorem eq_of_suffix {first second : String} {inner : Location} (one : first :: place <:+ inner)
    (other : second :: place <:+ inner) :
    first = second := by
  have same := List.suffix_of_suffix_length_le one other (by simp)
  exact (List.cons.inj (same.eq_of_length (by simp))).1

/-- Each file that is found stands below the directory, at the place that its path leads to. -/
theorem Finds.stands (finds : Finds scan files place path names found) (plain : files.IsPlain)
    (start : files.placeOf path = place)
    (member : file ∈ found) : ∃ directories name,
      file = scan.fileAt (directories.foldl Path.join path) name ∧
        (∀ text ∈ directories ++ [name], Path.IsName text) ∧
      files.placeOf file.location = name :: (directories.reverse ++ place) ∧
      (∃ bytes, files.content? (files.placeOf file.location) = some (.file bytes)) ∧
      ∃ first ∈ names, first :: place <:+ files.placeOf file.location := by
  induction finds with
  | done => cases member
  | excluded _ _ ih =>
    obtain ⟨directories, name, eq, areNames, placed, bytes, first, inNames, below⟩ := ih start member
    exact ⟨directories, name, eq, areNames, placed, bytes, first, List.mem_cons_of_mem _ inNames, below⟩
  | @directory place path name names inner rest _ _ _ here _ _ ihInner ihRest =>
    rcases List.mem_append.mp member with inInner | inRest
    · have isName := plain.isName name place _ here
      obtain ⟨directories, last, eq, areNames, placed, bytes, first, _, below⟩ :=
        ihInner (by rw [files.placeOf_join path isName, start]) inInner
      refine ⟨name :: directories, last, eq, ?_, ?_, bytes, name, List.mem_cons_self,
        (List.suffix_cons _ _).trans below⟩
      · intro text member
        rcases List.mem_cons.mp member with rfl | inside
        · exact isName
        · exact areNames text inside
      · rw [placed, List.reverse_cons, List.append_assoc, List.singleton_append]
    · obtain ⟨directories, name, eq, areNames, placed, bytes, first, inNames, below⟩ := ihRest start inRest
      exact ⟨directories, name, eq, areNames, placed, bytes, first, List.mem_cons_of_mem _ inNames, below⟩
  | @file place path name names bytes rest _ _ _ here _ ih =>
    have cases_ : file = scan.fileAt path name ∨ file ∈ rest := by
      split at member
      · exact List.mem_cons.mp member
      · exact Or.inr member
    rcases cases_ with rfl | inRest
    · have isName := plain.isName name place _ here
      have placed : files.placeOf (scan.fileAt path name).location = name :: place := by
        rw [← start]
        exact files.placeOf_join path isName
      exact ⟨[], name, rfl,
        by simpa using isName, placed, ⟨bytes, placed ▸ here⟩, name, List.mem_cons_self, [], placed.symm⟩
    · obtain ⟨directories, name, eq, areNames, placed, bytes, first, inNames, below⟩ := ih start inRest
      exact ⟨directories, name, eq, areNames, placed, bytes, first, List.mem_cons_of_mem _ inNames, below⟩

/-- Different files that are found stand at different places. -/
theorem Finds.nodup (finds : Finds scan files place path names found) (plain : files.IsPlain)
    (start : files.placeOf path = place)
    (distinct : names.Nodup) : (found.map fun file => files.placeOf file.location).Nodup := by
  induction finds with
  | done => exact List.nodup_nil
  | excluded _ _ ih => exact ih start (List.nodup_cons.mp distinct).2
  | @directory place path name names inner rest _ _ _ here isInner isRest ihInner ihRest =>
    have isName := plain.isName name place _ here
    have startInner : files.placeOf (Path.join path name) = name :: place := by
      rw [files.placeOf_join path isName, start]
    rw [List.map_append, List.nodup_append]
    refine ⟨ihInner startInner (files.namesIn_nodup _), ihRest start (List.nodup_cons.mp distinct).2, ?_⟩
    intro p inInner q inRest same
    -- a place below this name is not below one of the others
    obtain ⟨file, member, rfl⟩ := List.mem_map.mp inInner
    obtain ⟨other, member', rfl⟩ := List.mem_map.mp inRest
    obtain ⟨_, _, _, _, _, _, deeper, _, below⟩ := isInner.stands plain startInner member
    obtain ⟨_, _, _, _, _, _, first, inNames, below'⟩ := isRest.stands plain start member'
    rw [← same] at below'
    exact (List.nodup_cons.mp distinct).1 (eq_of_suffix ((List.suffix_cons _ _).trans below) below' ▸ inNames)
  | @file place path name names bytes rest _ _ _ here isRest ih =>
    have inRest := ih start (List.nodup_cons.mp distinct).2
    split
    · rw [List.map_cons, List.nodup_cons]
      refine ⟨fun member => ?_, inRest⟩
      obtain ⟨other, member', same⟩ := List.mem_map.mp member
      have isName := plain.isName name place _ here
      obtain ⟨_, _, _, _, _, _, first, inNames, below⟩ := isRest.stands plain start member'
      rw [same, show (scan.fileAt path name).location = Path.join path name from rfl,
        files.placeOf_join path isName, start] at below
      exact (List.nodup_cons.mp distinct).1 (eq_of_suffix (List.suffix_refl _) below ▸ inNames)
    · exact inRest

end Scan

end ModuleBundler
