import ModuleBundler.Proofs.Scan

namespace ModuleBundler

namespace Path

variable {base front onward others : List Step} {first second from_ : String} {names names' : List String}

theorem stepsBetween_cons_cases (step : Step) (base path : List Step) :
    (∃ rest, path = step :: rest ∧ stepsBetween (step :: base) path = stepsBetween base rest) ∨
      stepsBetween (step :: base) path = (step :: base).map (fun _ => .up) ++ path := by
  cases path with
  | nil => exact Or.inr (by simp [stepsBetween])
  | cons first rest =>
    rw [stepsBetween]
    split
    · next same => exact Or.inl ⟨rest, same ▸ rfl, rfl⟩
    · exact Or.inr rfl

/-- A path that does not go up on its own goes up at most once for each step of the base. -/
theorem count_up_stepsBetween_le (base : List Step) (down : .up ∉ onward) :
    (stepsBetween base onward).count .up ≤ base.length := by
  induction base generalizing onward with
  | nil => simp [stepsBetween, List.count_eq_zero.mpr down]
  | cons step base ih =>
    rcases stepsBetween_cons_cases step base onward with ⟨rest, rfl, between⟩ | between
    · rw [between, List.length_cons]
      exact Nat.le_succ_of_le (ih fun member => down (List.mem_cons_of_mem _ member))
    · simp [between, List.map_const', List.count_eq_zero.mpr down]

/-- The steps from one place tell a path that does not go up on its own. -/
theorem eq_of_stepsBetween_eq (down : .up ∉ onward) (down' : .up ∉ others)
    (same : stepsBetween base onward = stepsBetween base others) :
    onward = others := by
  induction base generalizing onward others with
  | nil => simpa [stepsBetween] using same
  | cons step base ih =>
    -- whoever leaves the base at once goes up more often than whoever does not
    have more (rest : List Step) : base.length < (((step :: base).map fun _ => Step.up) ++ rest).count .up := by
      simp only [List.map_const', List.length_cons, List.count_append, List.count_replicate_self]
      omega
    have tail {rest : List Step} (down : .up ∉ step :: rest) : .up ∉ rest :=
      fun member => down (List.mem_cons_of_mem _ member)
    rcases stepsBetween_cons_cases step base onward with ⟨rest, rfl, between⟩ | between
    · rcases stepsBetween_cons_cases step base others with ⟨rest', rfl, between'⟩ | between'
      · rw [between, between'] at same
        rw [ih (tail down) (tail down') same]
      · rw [between, between'] at same
        exact absurd (same ▸ count_up_stepsBetween_le base (tail down)) (Nat.not_le.mpr (more others))
    · rcases stepsBetween_cons_cases step base others with ⟨rest', rfl, between'⟩ | between'
      · rw [between, between'] at same
        exact absurd (same ▸ count_up_stepsBetween_le base (tail down')) (Nat.not_le.mpr (more onward))
      · rw [between, between'] at same
        exact List.append_cancel_left same

/-- Behind a common beginning, the steps from one place tell the names that a path goes on by. -/
theorem eq_of_names_between (same : (stepsBetween base (front ++ names.map .name)).filter (· ≠ .root) =
    (stepsBetween base (front ++ names'.map .name)).filter (· ≠ .root)) : names = names' := by
  have injective : Function.Injective (List.map Step.name) := List.map_injective_iff.mpr fun _ _ => Step.name.inj
  have all (names : List String) : (names.map Step.name).filter (· ≠ .root) = names.map .name := by simp
  induction front generalizing base with
  | nil =>
    have noRoot (names : List String) : (stepsBetween base (names.map .name)).filter (· ≠ .root) =
        stepsBetween base (names.map .name) := by
      refine List.filter_eq_self.mpr fun step member => ?_
      rcases mem_stepsBetween member with rfl | inNames
      · rfl
      · obtain ⟨name, _, rfl⟩ := List.mem_map.mp inNames
        rfl
    rw [List.nil_append, List.nil_append, noRoot, noRoot] at same
    exact injective (eq_of_stepsBetween_eq (by simp) (by simp) same)
  | cons step front ih =>
    cases base with
    | nil =>
      simp only [stepsBetween, List.map_nil, List.nil_append, List.filter_append, all, List.append_cancel_left_eq]
        at same
      exact injective same
    | cons other base =>
      rw [List.cons_append, List.cons_append, stepsBetween, stepsBetween] at same
      split at same
      · exact ih same
      · simp only [← List.cons_append, List.filter_append, all, List.append_cancel_left_eq] at same
        exact injective same

/-- Two paths that go on from the same place by different names are different from wherever they are seen. -/
theorem eq_of_relativeTo_eq (firstSteps : steps first = front ++ names.map .name)
    (secondSteps : steps second = front ++ names'.map .name)
    (same : relativeTo first from_ = relativeTo second from_) : names = names' := by
  have between := congrArg (fun text : String => namedSteps text.toList) same
  simp only [namedSteps_relativeTo, firstSteps, secondSteps] at between
  exact eq_of_names_between between

end Path

namespace Scan

variable {scan : Scan} {files : Files} {links : Nat} {place : Location}
  {path name last : String} {names : List String}
  {found : List SourceFile} {other : SourceFile}

/-- A file that goes by a name has another path than the files that go by other names. -/
theorem Collects.relativePath_ne (isRest : Collects scan files links place path names found) (named : files.HasNames)
    (nonempty : path ≠ "")
    (areNames : ∀ name ∈ names, Path.IsName name) (new : name ∉ names) (directories : List String)
    (begins : [name] <+: directories ++ [last])
    (areBelow : ∀ text ∈ directories ++ [last], Path.IsName text) (member : other ∈ found) :
    (scan.fileAt (directories.foldl Path.join path) last).relativePath ≠ other.relativePath := by
  intro same
  obtain ⟨directories', last', rfl, areBelow', first, inNames, begins'⟩ := isRest.exists_names named areNames member
  have way : directories ++ [last] = directories' ++ [last'] :=
    Path.eq_of_relativeTo_eq (Path.steps_join_foldl nonempty areBelow) (Path.steps_join_foldl nonempty areBelow') same
  rw [← way] at begins'
  have firsts : [name] = [first] := (List.prefix_of_prefix_length_le begins begins' (Nat.le_refl 1)).eq_of_length rfl
  exact new ((List.cons.inj firsts).1 ▸ inNames)

theorem Collects.relativePath_nodup (collects : Collects scan files links place path names found)
    (named : files.HasNames)
    (nonempty : path ≠ "") (areNames : ∀ name ∈ names, Path.IsName name) (distinct : names.Nodup) :
    (found.map SourceFile.relativePath).Nodup := by
  induction collects with
  | done => exact List.nodup_nil
  | excluded _ _ ih => exact ih nonempty (List.forall_mem_cons.mp areNames).2 (List.nodup_cons.mp distinct).2
  | @directory _ _ _ there path name _ _ _ _ _ _ _ isInner isRest ihInner ihRest =>
    obtain ⟨isName, others⟩ := List.forall_mem_cons.mp areNames
    obtain ⟨new, distinct⟩ := List.nodup_cons.mp distinct
    have inner := ihInner (Path.join_ne_empty nonempty isName.isAbsolute) (fun _ => named.isName)
      (files.namesIn_nodup there)
    rw [List.map_append, List.nodup_append]
    refine ⟨inner, ihRest nonempty others distinct, ?_⟩
    intro one inInner other inRest
    obtain ⟨file, member, rfl⟩ := List.mem_map.mp inInner
    obtain ⟨otherFile, member', rfl⟩ := List.mem_map.mp inRest
    obtain ⟨directories, last, rfl, areBelow, _⟩ := isInner.exists_names named (fun _ => named.isName) member
    have areBelow : ∀ text ∈ name :: directories ++ [last], Path.IsName text :=
      List.forall_mem_cons.mpr ⟨isName, areBelow⟩
    exact isRest.relativePath_ne named nonempty others new (name :: directories) ⟨_, rfl⟩ areBelow member'
  | @file _ _ _ _ path name _ _ rest _ _ _ _ _ isRest ih =>
    obtain ⟨isName, others⟩ := List.forall_mem_cons.mp areNames
    obtain ⟨new, distinct⟩ := List.nodup_cons.mp distinct
    have inRest := ih nonempty others distinct
    split
    · rw [List.map_cons, List.nodup_cons]
      refine ⟨fun member => ?_, inRest⟩
      obtain ⟨otherFile, member', same⟩ := List.mem_map.mp member
      have alone : ∀ text ∈ [] ++ [name], Path.IsName text := by simpa using isName
      exact isRest.relativePath_ne named nonempty others new [] (List.prefix_refl _) alone member' same.symm
    · exact inRest

/-- No two files that a scan finds have the same path, wherever the paths begin. -/
theorem relativePath_nodup_of_run (named : files.HasNames) (result : (scan.run files path).result = .ok found) :
    (found.map SourceFile.relativePath).Nodup := by
  rcases run_eq_ok_iff.mp result with ⟨_, rfl⟩ | ⟨place, left, reached, _, collects⟩
  · exact List.nodup_nil
  · have nonempty : path ≠ "" := by
      rintro rfl
      cases (Files.reach_eq_ok_iff.mp reached).1
    exact collects.relativePath_nodup named nonempty (fun _ => named.isName) (files.namesIn_nodup place)

end Scan

end ModuleBundler
