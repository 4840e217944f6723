import Mathlib.Data.List.Basic
import ModuleBundler.Path

namespace ModuleBundler

namespace Text

variable {mark c : Char} {cs before after piece : List Char}

theorem splitOn_cons_self (mark : Char) (cs : List Char) : splitOn mark (mark :: cs) = [] :: splitOn mark cs := by
  rw [splitOn, if_pos rfl]

theorem splitOn_cons_ne (other : c ≠ mark) (cs : List Char) :
    ∃ piece pieces, splitOn mark cs = piece :: pieces ∧ splitOn mark (c :: cs) = (c :: piece) :: pieces := by
  obtain ⟨piece, pieces, split⟩ := List.exists_cons_of_ne_nil (splitOn_ne_nil mark cs)
  refine ⟨piece, pieces, split, ?_⟩
  rw [splitOn, if_neg other, split]

theorem splitOn_append (mark : Char) (before after : List Char) :
    splitOn mark (before ++ mark :: after) = splitOn mark before ++ splitOn mark after := by
  induction before with
  | nil => exact splitOn_cons_self mark after
  | cons c before ih =>
    by_cases same : c = mark
    · subst same
      rw [List.cons_append, splitOn_cons_self, ih, splitOn_cons_self, List.cons_append]
    · obtain ⟨piece, pieces, split, whole⟩ := splitOn_cons_ne same before
      obtain ⟨piece', pieces', split', whole'⟩ := splitOn_cons_ne same (before ++ mark :: after)
      rw [ih, split, List.cons_append] at split'
      obtain ⟨rfl, rfl⟩ := List.cons.inj split'
      rw [List.cons_append, whole, whole', List.cons_append]

theorem splitOn_eq_self (absent : mark ∉ cs) : splitOn mark cs = [cs] := by
  induction cs with
  | nil => rfl
  | cons c cs ih =>
    obtain ⟨piece, pieces, split, whole⟩ := splitOn_cons_ne
      (fun same : c = mark => absent (same ▸ List.mem_cons_self)) cs
    rw [ih fun inRest => absent (List.mem_cons_of_mem _ inRest)] at split
    obtain ⟨rfl, rfl⟩ := List.cons.inj split
    exact whole

theorem not_mem_of_mem_splitOn (member : piece ∈ splitOn mark cs) : mark ∉ piece := by
  induction cs generalizing piece with
  | nil =>
    rw [splitOn, List.mem_singleton] at member
    simp [member]
  | cons c cs ih =>
    by_cases same : c = mark
    · subst same
      rw [splitOn_cons_self] at member
      rcases List.mem_cons.mp member with rfl | inRest
      · exact List.not_mem_nil
      · exact ih inRest
    · obtain ⟨first, pieces, split, whole⟩ := splitOn_cons_ne same cs
      rw [split] at ih
      rw [whole] at member
      rcases List.mem_cons.mp member with rfl | inRest
      · exact fun inPiece => (List.mem_cons.mp inPiece).elim (fun eq => same eq.symm) (ih List.mem_cons_self)
      · exact ih (List.mem_cons_of_mem _ inRest)

end Text

namespace Path

variable {base path name : String} {step : Step} {all more : List Step}

/-- Whether a text is the name of an entry: not empty, not one of the two dots, and without a slash. -/
def IsName (name : String) : Prop := '/' ∉ name.toList ∧ step? name.toList = some (.name name)

instance (name : String) : Decidable (IsName name) := inferInstanceAs (Decidable (_ ∧ _))

/-- The steps of a path between its slashes. -/
def namedSteps (path : List Char) : List Step := (Text.splitOn '/' path).filterMap step?

theorem allSteps_eq (path : String) :
    allSteps path = if isAbsolute path then .root :: namedSteps path.toList else namedSteps path.toList := by
  simp only [allSteps, isAbsolute, namedSteps, decide_eq_true_eq]

theorem namedSteps_append (before after : List Char) :
    namedSteps (before ++ '/' :: after) = namedSteps before ++ namedSteps after := by
  rw [namedSteps, Text.splitOn_append, List.filterMap_append, namedSteps, namedSteps]

theorem isAbsolute_append (nonempty : base ≠ "") (more : String) : isAbsolute (base ++ more) = isAbsolute base := by
  have cons : base.toList ≠ [] := fun nil => nonempty (String.toList_eq_nil_iff.mp nil)
  obtain ⟨c, rest, eq⟩ := List.exists_cons_of_ne_nil cons
  simp [isAbsolute, eq]

/-- The steps of a path that is joined to another one come behind those of that one. -/
theorem allSteps_join (base : String) (relative : isAbsolute path = false) :
    allSteps (join base path) = allSteps base ++ allSteps path := by
  unfold join
  by_cases empty : base = ""
  · subst empty
    rw [if_pos (by simp)]
    rfl
  · have isEmpty : base.isEmpty = false := by simpa using empty
    rw [if_neg (by simp [relative, isEmpty])]
    have path_eq : allSteps path = namedSteps path.toList := by simp [allSteps_eq, relative]
    split
    · next slash =>
      have last : base.toList.getLast? = some '/' := by simpa [endsInSlash] using slash
      have split := List.dropLast_append_getLast? _ last
      have base_eq : namedSteps base.toList = namedSteps base.toList.dropLast := by
        nth_rewrite 1 [← split]
        rw [namedSteps_append]
        exact List.append_nil _
      have named : namedSteps (base ++ path).toList = namedSteps base.toList ++ namedSteps path.toList := by
        rw [String.toList_append, base_eq, ← namedSteps_append]
        nth_rewrite 1 [← split]
        rw [List.append_assoc, List.singleton_append]
      rw [allSteps_eq, isAbsolute_append empty, named, allSteps_eq, path_eq]
      split <;> rfl
    · have named : namedSteps (base ++ "/" ++ path).toList = namedSteps base.toList ++ namedSteps path.toList := by
        rw [← namedSteps_append]
        simp
      rw [allSteps_eq, String.append_assoc, isAbsolute_append empty, ← String.append_assoc, named,
        allSteps_eq, path_eq]
      split <;> rfl

theorem step?_cons_ne_none (c : Char) (cs : List Char) : step? (c :: cs) ≠ none := by
  unfold step?
  split <;> simp_all

theorem allSteps_eq_nil_iff : allSteps path = [] ↔ path = "" := by
  constructor
  · intro none
    by_contra nonempty
    obtain ⟨c, cs, eq⟩ := List.exists_cons_of_ne_nil fun nil => nonempty (String.toList_eq_nil_iff.mp nil)
    rw [allSteps_eq] at none
    split at none
    · cases none
    · next relative =>
      have noSlash : c ≠ '/' := by
        rintro rfl
        exact relative (by simp [isAbsolute, eq])
      obtain ⟨piece, pieces, _, whole⟩ := Text.splitOn_cons_ne noSlash cs
      rw [namedSteps, eq, whole] at none
      exact step?_cons_ne_none c piece (List.filterMap_eq_nil_iff.mp none _ List.mem_cons_self)
  · rintro rfl
    rfl

/-- Between slashes stand dots and names alone. -/
theorem mem_namedSteps {cs : List Char} (member : step ∈ namedSteps cs) :
    step = .here ∨ step = .up ∨ ∃ name, IsName name ∧ step = .name name := by
  obtain ⟨piece, inPieces, isStep⟩ := List.mem_filterMap.mp member
  have noSlash := Text.not_mem_of_mem_splitOn inPieces
  have isStep' := isStep
  unfold step? at isStep
  split at isStep
  · cases isStep
  · exact Or.inl (Option.some.inj isStep).symm
  · exact Or.inr (Or.inl (Option.some.inj isStep).symm)
  · obtain rfl := Option.some.inj isStep
    refine Or.inr (Or.inr ⟨_, ⟨?_, ?_⟩, rfl⟩)
    · rwa [String.toList_ofList]
    · rwa [String.toList_ofList]

/-- Whether a path can have a step: a name has to be one that stands between slashes. -/
def Step.IsProper : Step → Prop
  | .name text => IsName text
  | _ => True

theorem isProper_of_mem_namedSteps {cs : List Char} (member : step ∈ namedSteps cs) : step.IsProper := by
  rcases mem_namedSteps member with rfl | rfl | ⟨name, isName, rfl⟩
  · trivial
  · trivial
  · exact isName

theorem namedSteps_text (proper : step.IsProper) :
    namedSteps step.text.toList = if step = .root then [] else [step] := by
  cases step with
  | root | here | up => rfl
  | name text =>
    rw [namedSteps, Step.text, Text.splitOn_eq_self proper.1]
    simp [proper.2]

theorem IsName.isAbsolute (isName : IsName name) : isAbsolute name = false := by
  simp only [Path.isAbsolute, decide_eq_false_iff_not]
  exact fun first => isName.1 (List.mem_of_mem_head? first)

theorem IsName.allSteps (isName : IsName name) : allSteps name = [.name name] := by
  rw [allSteps_eq, isName.isAbsolute, namedSteps, Text.splitOn_eq_self isName.1]
  simp [isName.2]

theorem steps_eq (path : String) : steps path = (allSteps path).head?.toList ++
    (allSteps path).tail.filter (· ≠ .here) := by
  unfold steps
  cases allSteps path <;> rfl

theorem steps_join (nonempty : base ≠ "") (relative : isAbsolute path = false) :
    steps (join base path) = steps base ++ (allSteps path).filter (· ≠ .here) := by
  obtain ⟨first, rest, eq⟩ := List.exists_cons_of_ne_nil fun nil => nonempty (allSteps_eq_nil_iff.mp nil)
  simp [steps_eq, allSteps_join base relative, eq]

theorem join_ne_empty (nonempty : base ≠ "") (relative : isAbsolute path = false) : join base path ≠ "" := by
  intro empty
  have none := allSteps_join base relative
  rw [empty] at none
  exact nonempty (allSteps_eq_nil_iff.mp (List.append_eq_nil_iff.mp none.symm).1)

theorem steps_foldl_join (nonempty : base ≠ "") {names : List String} (areNames : ∀ name ∈ names, IsName name) :
    names.foldl join base ≠ "" ∧ steps (names.foldl join base) = steps base ++ names.map .name := by
  induction names generalizing base with
  | nil => exact ⟨nonempty, (List.append_nil _).symm⟩
  | cons name names ih =>
    have isName := areNames name List.mem_cons_self
    obtain ⟨nonempty', eq⟩ := ih (join_ne_empty nonempty isName.isAbsolute) fun other member =>
      areNames other (List.mem_cons_of_mem _ member)
    refine ⟨nonempty', eq.trans ?_⟩
    rw [steps_join nonempty isName.isAbsolute, isName.allSteps, List.append_assoc]
    rfl

theorem steps_join_foldl (nonempty : base ≠ "") {directories : List String}
    (areNames : ∀ text ∈ directories ++ [name], IsName text) :
    steps (join (directories.foldl join base) name) = steps base ++ (directories ++ [name]).map .name := by
  have steps := (steps_foldl_join nonempty areNames).2
  rwa [List.foldl_concat] at steps

/-- Behind the first one, no step leads to the root, and none stays. -/
theorem mem_tail_steps (member : step ∈ (steps path).tail) :
    step = .up ∨ ∃ name, IsName name ∧ step = .name name := by
  rw [steps_eq, allSteps_eq] at member
  have named (inNamed : step ∈ namedSteps path.toList) (moves : step ≠ .here) :
      step = .up ∨ ∃ name, IsName name ∧ step = .name name :=
    (mem_namedSteps inNamed).resolve_left moves
  split at member
  · simp only [List.head?_cons, Option.toList_some, List.tail_cons, List.singleton_append] at member
    obtain ⟨inNamed, moves⟩ := List.mem_filter.mp member
    exact named inNamed (by simpa using moves)
  · cases all : namedSteps path.toList with
    | nil => simp [all] at member
    | cons first rest =>
      simp only [all, List.head?_cons, Option.toList_some, List.tail_cons, List.singleton_append] at member
      obtain ⟨inRest, moves⟩ := List.mem_filter.mp member
      exact named (all ▸ List.mem_cons_of_mem _ inRest) (by simpa using moves)

theorem mem_allSteps_of_mem_steps (member : step ∈ steps path) : step ∈ allSteps path := by
  unfold steps at member
  split at member
  · cases member
  · next first rest all =>
    rw [all]
    exact List.cons_subset_cons first List.filter_sublist.subset member

theorem isProper_of_mem_steps (member : step ∈ steps path) : step.IsProper := by
  have inAll := mem_allSteps_of_mem_steps member
  rw [allSteps_eq] at inAll
  split at inAll
  · rcases List.mem_cons.mp inAll with rfl | named
    · trivial
    · exact isProper_of_mem_namedSteps named
  · exact isProper_of_mem_namedSteps inAll

theorem steps_eq_nil_iff : steps path = [] ↔ path = "" := by
  rw [steps_eq, List.append_eq_nil_iff, ← allSteps_eq_nil_iff]
  cases allSteps path <;> simp

theorem mem_steps_append {rest : List Step} (nonempty : base ≠ "") (eq : steps path = steps base ++ rest)
    (member : step ∈ rest) :
    step = .up ∨ ∃ name, IsName name ∧ step = .name name := by
  have inTail : step ∈ (steps path).tail := by
    rw [eq, List.tail_append_of_ne_nil fun nil => nonempty (steps_eq_nil_iff.mp nil)]
    exact List.mem_append_right _ member
  exact mem_tail_steps inTail

theorem stepsBetween_append (base rest : List Step) : stepsBetween base (base ++ rest) = rest := by
  induction base with
  | nil => cases rest <;> simp [stepsBetween]
  | cons step base ih => rw [List.cons_append, stepsBetween, if_pos rfl, ih]

/-- Where the path does not begin with the base, the way out of the base comes first. -/
theorem stepsBetween_cases (base path : List Step) :
    (∃ rest, path = base ++ rest) ∨ ∃ rest, stepsBetween base path = .up :: rest := by
  induction base generalizing path with
  | nil => exact Or.inl ⟨path, rfl⟩
  | cons step base ih =>
    cases path with
    | nil => exact Or.inr ⟨_, by simp [stepsBetween]; rfl⟩
    | cons first path =>
      rw [stepsBetween]
      split
      · next same =>
        subst same
        rcases ih path with ⟨rest, rfl⟩ | up
        · exact Or.inl ⟨rest, rfl⟩
        · exact Or.inr up
      · exact Or.inr ⟨_, rfl⟩

theorem toList_slash_intercalate (texts : List String) :
    ("/".intercalate texts).toList = ['/'].intercalate (texts.map String.toList) := by
  rw [String.toList_intercalate]
  rfl

/-- Steps come back when they are joined to a text, but for those that lead to the root. -/
theorem namedSteps_intercalate (proper : ∀ step ∈ all, step.IsProper) :
    namedSteps ("/".intercalate (all.map Step.text)).toList = all.filter (· ≠ .root) := by
  rw [toList_slash_intercalate, List.map_map]
  induction all with
  | nil => rfl
  | cons step rest ih =>
    obtain ⟨first, others⟩ := List.forall_mem_cons.mp proper
    have one : namedSteps step.text.toList = [step].filter (· ≠ .root) := by
      rw [namedSteps_text first]
      by_cases isRoot : step = .root <;> simp [isRoot]
    cases rest with
    | nil =>
      rw [List.map_singleton, List.intercalate_singleton]
      exact one
    | cons second rest =>
      rw [List.map_cons, List.map_cons, List.intercalate_cons_cons, List.append_assoc, List.singleton_append,
        namedSteps_append, ← List.map_cons, ih others, Function.comp_apply, one, ← List.filter_append]
      rfl

theorem mem_stepsBetween (member : step ∈ stepsBetween all more) : step = .up ∨ step ∈ more := by
  fun_induction stepsBetween all more with
  | case1 b base path ih => exact (ih member).imp_right (List.mem_cons_of_mem _)
  | case2 b base p path _ | case3 base path =>
    rcases List.mem_append.mp member with out | onward
    · obtain ⟨_, _, rfl⟩ := List.mem_map.mp out
      exact Or.inl rfl
    · exact Or.inr onward

/-- The path between two places tells the steps between them, but for one to the root. -/
theorem namedSteps_relativeTo (path base : String) :
    namedSteps (relativeTo path base).toList = (stepsBetween (steps base) (steps path)).filter (· ≠ .root) := by
  refine namedSteps_intercalate fun step member => ?_
  rcases mem_stepsBetween member with rfl | inPath
  · trivial
  · exact isProper_of_mem_steps inPath

/-- The path to a place is one of names exactly if its steps are those of the base and then these names. -/
theorem relativeTo_eq_iff (nonempty : base ≠ "") {names : List String} (areNames : ∀ name ∈ names, IsName name) :
    relativeTo path base = "/".intercalate names ↔ steps path = steps base ++ names.map .name := by
  have texts : (names.map Step.name).map Step.text = names := by
    rw [List.map_map]
    exact List.map_id names
  constructor
  · intro same
    have named : namedSteps ("/".intercalate names).toList = (names.map Step.name).filter (· ≠ .root) := by
      nth_rewrite 1 [← texts]
      exact namedSteps_intercalate (List.forall_mem_map.mpr areNames)
    rw [← same, namedSteps_relativeTo] at named
    have noRoot : (names.map Step.name).filter (· ≠ .root) = names.map .name := by simp
    rcases stepsBetween_cases (steps base) (steps path) with ⟨rest, eq⟩ | ⟨rest, eq⟩
    · have noRoot' : rest.filter (· ≠ .root) = rest := by
        refine List.filter_eq_self.mpr fun step member => ?_
        rcases mem_steps_append nonempty eq member with rfl | ⟨_, _, rfl⟩ <;> rfl
      rw [eq, stepsBetween_append, noRoot, noRoot'] at named
      rw [eq, named]
    · rw [eq, noRoot, List.filter_cons_of_pos (by simp)] at named
      have up : .up ∈ names.map Step.name := named ▸ List.mem_cons_self
      simp at up
  · intro eq
    rw [relativeTo, eq, stepsBetween_append, texts]

end Path

end ModuleBundler
