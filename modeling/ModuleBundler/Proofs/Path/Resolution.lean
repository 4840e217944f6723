import ModuleBundler.Proofs.Files.Plain

namespace ModuleBundler.Path

variable {base path : String} {taken all more common out rest : List Step}

/-- What is left of some steps when one more follows them, the last one first. A step up takes back a name and
leads from the root to the root. Where nothing is left that it could take back, it stays. -/
def Step.after (taken : List Step) : Step → List Step
  | .root => [.root]
  | .here => taken
  | .up =>
    match taken with
    | .name _ :: before => before
    | .root :: before => .root :: before
    | before => .up :: before
  | .name text => .name text :: taken

/-- What is left of some steps when others follow them. -/
def settle (taken steps : List Step) : List Step := steps.foldl Step.after taken

/-- The steps of a path when those that stay and those that go up are resolved. -/
def resolved (path : String) : List Step := (settle [] (allSteps path)).reverse

@[simp]
theorem settle_nil (taken : List Step) : settle taken [] = taken := rfl

@[simp]
theorem settle_cons (taken : List Step) (step : Step) (steps : List Step) :
    settle taken (step :: steps) = settle (step.after taken) steps := rfl

theorem settle_append (taken steps more : List Step) :
    settle taken (steps ++ more) = settle (settle taken steps) more :=
  List.foldl_append

theorem settle_filter (taken steps : List Step) : settle taken (steps.filter (· ≠ .here)) = settle taken steps := by
  induction steps generalizing taken with
  | nil => rfl
  | cons step steps ih =>
    by_cases stays : step = .here
    · subst stays
      exact ih taken
    · rw [List.filter_cons_of_pos (by simpa using stays)]
      exact ih _

/-- The steps that do not matter leave nothing behind. -/
theorem settle_allSteps (taken : List Step) (path : String) :
    settle taken (allSteps path) = settle taken (steps path) := by
  rw [steps_eq]
  cases allSteps path with
  | nil => rfl
  | cons first rest =>
    rw [List.head?_cons, List.tail_cons, Option.toList_some, settle_append, settle_filter]
    rfl

/-- Each step leads on from what is left of the steps before it. -/
theorem follow_after (place : Location) (taken : List Step) (step : Step) :
    follow place (step.after taken).reverse = step.next (follow place taken.reverse) := by
  cases step with
  | root | here | name => simp [Step.after, Step.next]
  | up =>
    rcases taken with _ | ⟨last, before⟩
    · rfl
    · cases last <;> simp [Step.after, Step.next]

/-- A path leads to where it leads when it has been resolved. -/
theorem follow_resolved (place : Location) (path : String) :
    follow place (resolved path) = follow place (allSteps path) := by
  have settled (taken steps : List Step) : follow place (settle taken steps).reverse =
      follow (follow place taken.reverse) steps := by
    induction steps generalizing taken with
    | nil => rfl
    | cons step steps ih => rw [settle_cons, ih, follow_after, follow_cons]
  exact settled [] (allSteps path)

/-- As many steps up as there are names take back these names. -/
theorem settle_ups (areNames : ∀ step ∈ out, ∃ name, step = .name name) :
    settle (settle taken out) (out.map fun _ => .up) = taken := by
  rw [List.map_const']
  induction out using List.reverseRecOn with
  | nil => rfl
  | append_singleton out last ih =>
    obtain ⟨before, isName⟩ := List.forall_mem_append.mp areNames
    obtain ⟨name, rfl⟩ := isName last (List.mem_singleton_self last)
    rw [settle_append, List.length_append, List.length_singleton, List.replicate_succ, settle_cons]
    exact ih before

/-- The steps between two rows of steps lead from what is left of the first one to what is left of the second one. -/
theorem settle_stepsBetween (areNames : ∀ step ∈ out, ∃ name, step = .name name) :
    settle (settle taken out) (stepsBetween out rest) = settle taken rest := by
  fun_induction stepsBetween out rest generalizing taken with
  | case1 step out rest ih => exact ih (List.forall_mem_cons.mp areNames).2
  | case2 | case3 => rw [settle_append, settle_ups areNames]

theorem stepsBetween_append_both (common out rest : List Step) :
    stepsBetween (common ++ out) (common ++ rest) = stepsBetween out rest := by
  induction common with
  | nil => rfl
  | cons step common ih => rw [List.cons_append, List.cons_append, stepsBetween, if_pos rfl, ih]

theorem steps_of_isAbsolute (absolute : isAbsolute path = true) : steps path = .root :: (steps path).tail := by
  rw [steps_eq, allSteps_eq, absolute]
  rfl

theorem root_notMem_tail_steps : .root ∉ (steps path).tail := by
  intro member
  rcases mem_tail_steps member with same | ⟨_, _, same⟩ <;> cases same

theorem root_notMem_steps (relative : isAbsolute path = false) : .root ∉ steps path := by
  intro member
  have named := mem_allSteps_of_mem_steps member
  rw [allSteps_eq, relative] at named
  rcases mem_namedSteps named with same | same | ⟨_, _, same⟩ <;> cases same

/-- No step between two paths leads to the root if both begin there or none does. -/
theorem root_notMem_stepsBetween (kind : isAbsolute path = isAbsolute base) :
    .root ∉ stepsBetween (steps base) (steps path) := by
  intro member
  cases absolute : isAbsolute base with
  | true =>
    rw [steps_of_isAbsolute absolute, steps_of_isAbsolute (kind.trans absolute), stepsBetween, if_pos rfl] at member
    exact root_notMem_tail_steps ((mem_stepsBetween member).resolve_left (by simp))
  | false => exact root_notMem_steps (kind.trans absolute) ((mem_stepsBetween member).resolve_left (by simp))

theorem isAbsolute_intercalate {step : Step} (proper : step.IsProper) (notRoot : step ≠ .root) (texts : List String) :
    isAbsolute ("/".intercalate (step.text :: texts)) = false := by
  have first : step.text.toList.head? ≠ some '/' ∧ step.text.toList ≠ [] := by
    cases step with
    | root => exact absurd rfl notRoot
    | here | up => decide
    | name text =>
      refine ⟨fun slash => proper.1 (List.mem_of_mem_head? slash), fun empty => ?_⟩
      have isStep := proper.2
      rw [show text.toList = [] from empty] at isStep
      cases isStep
  obtain ⟨c, cs, text_eq⟩ := List.exists_cons_of_ne_nil first.2
  rw [text_eq] at first
  rw [isAbsolute, toList_slash_intercalate, List.map_cons, decide_eq_false_iff_not]
  cases texts with
  | nil => simpa [text_eq] using first.1
  | cons second texts => simpa [text_eq, List.intercalate_cons_cons] using first.1

theorem allSteps_relativeTo (kind : isAbsolute path = isAbsolute base) :
    isAbsolute (relativeTo path base) = false ∧
        allSteps (relativeTo path base) = stepsBetween (steps base) (steps path) := by
  have noRoot := root_notMem_stepsBetween kind
  have relative : isAbsolute (relativeTo path base) = false := by
    rw [relativeTo]
    cases between : stepsBetween (steps base) (steps path) with
    | nil => rfl
    | cons first rest =>
      have member : first ∈ stepsBetween (steps base) (steps path) := between ▸ List.mem_cons_self
      refine isAbsolute_intercalate ?_ (fun same => noRoot (same ▸ member)) _
      rcases mem_stepsBetween member with rfl | inPath
      · trivial
      · exact isProper_of_mem_steps inPath
  refine ⟨relative, ?_⟩
  rw [allSteps_eq, if_neg (by simp [relative]), namedSteps_relativeTo, List.filter_eq_self]
  exact fun step member => decide_eq_true fun same => noRoot (same ▸ member)

/-- The path that leads from one place to another leads back to it: behind the first path it is, resolved, the
second path. Both begin at the root or none does, and behind some steps that both begin with, such as all that
they have in common at the beginning, the first path goes on by names alone. -/
theorem resolved_join_relativeTo (kind : isAbsolute path = isAbsolute base) (base_eq : steps base = common ++ out)
    (path_eq : steps path = common ++ rest) (areNames : ∀ step ∈ out, ∃ name, step = .name name) :
    resolved (join base (relativeTo path base)) = resolved path ∧
      ∀ files : Files, files.placeOf (join base (relativeTo path base)) = files.placeOf path := by
  obtain ⟨relative, between⟩ := allSteps_relativeTo kind
  have same : resolved (join base (relativeTo path base)) = resolved path := by
    refine congrArg List.reverse ?_
    calc settle [] (allSteps (join base (relativeTo path base)))
        = settle (settle [] (steps base)) (stepsBetween (steps base) (steps path)) := by
          rw [allSteps_join base relative, settle_append, between, settle_allSteps]
      _ = settle (settle (settle [] common) out) (stepsBetween out rest) := by
          rw [base_eq, path_eq, settle_append, stepsBetween_append_both]
      _ = settle (settle [] common) rest := settle_stepsBetween areNames
      _ = settle [] (allSteps path) := by rw [settle_allSteps, path_eq, settle_append]
  refine ⟨same, fun files => ?_⟩
  rw [Files.placeOf, Files.placeOf, ← follow_resolved, same, follow_resolved]

/-- A way up behind the root, one between names, and slashes where none is needed. -/
theorem resolved_join_relativeTo_around : isAbsolute "/w//../a/./b/" = isAbsolute "/w/../c//d/" ∧
    steps "/w/../c//d/" = [.root, .name "w", .up] ++ [.name "c", .name "d"] ∧
    steps "/w//../a/./b/" = [.root, .name "w", .up] ++ [.name "a", .name "b"] ∧
    relativeTo "/w//../a/./b/" "/w/../c//d/" = "../../a/b" ∧
    resolved "/w//../a/./b/" = [.root, .name "a", .name "b"] ∧
    resolved (join "/w/../c//d/" "../../a/b") = resolved "/w//../a/./b/" := by
  have base_eq : steps "/w/../c//d/" = [.root, .name "w", .up] ++ [.name "c", .name "d"] := by decide
  have path_eq : steps "/w//../a/./b/" = [.root, .name "w", .up] ++ [.name "a", .name "b"] := by decide
  have between : relativeTo "/w//../a/./b/" "/w/../c//d/" = "../../a/b" := by decide
  have back := (resolved_join_relativeTo (by decide) base_eq path_eq (by simp)).1
  exact ⟨by decide, base_eq, path_eq, between, by decide, between ▸ back⟩

end ModuleBundler.Path
