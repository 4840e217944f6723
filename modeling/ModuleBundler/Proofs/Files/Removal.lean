import ModuleBundler.Proofs.Files.Walks

/-!
Removing a tree.

`Files.Sweeps` says which places are cleared when the tree that a path leads to is removed. A removal that
succeeds clears just these, and one that fails clears no other (`lacks_removeTree`).

What a path leads to is still there after a loss exactly if the path needs nothing of what has been lost
(`Lacks.look_iff`).
-/

namespace ModuleBundler.Files

variable {files now before : Files} {place top : Location} {path : String} {content : Content}
  {lost : Location → Prop}

/-- The places that are cleared when the tree that a path leads to is removed. -/
inductive Sweeps (files : Files) (path : String) : Location → Prop
  | link {place : Location} : files.ownLink? path = some place → Sweeps files path place
  | inside {top place : Location} {left : Nat} :
      files.ownLink? path = none → files.reach path = .ok (top, left) → isInside place top → Sweeps files path place
  /-- The directory itself goes last, if the path still leads to the one that holds it and then names it. -/
  | top {above : Location} {text : String} {left : Nat} :
      files.ownLink? path = none → files.reach path = .ok (text :: above, left) →
      files.content? (text :: above) = some .directory →
      (files.clear (text :: above)).lastStep path = .ok (above, some (.name text)) → Sweeps files path (text :: above)

/-- Whether a path leads somewhere only because of what stands at a place. -/
def Needs (files : Files) (path : String) (place : Location) : Prop :=
  files.reaches path ∧ ¬(files.remove place).reaches path

theorem reaches_iff : files.reaches path ↔ ∃ content, files.look path = .ok content := by
  unfold reaches
  cases files.look path with
  | ok content => simp [Except.isOk, Except.toBool]
  | error cause => simp [Except.isOk, Except.toBool]

theorem Lacks.look (lacks : Lacks now before lost) (found : now.look path = .ok content) :
    before.look path = .ok content := by
  obtain ⟨place, left, reached, here⟩ := look_eq_ok_iff.mp found
  exact look_eq_ok_iff.mpr ⟨place, left, lacks.isWithin.reach reached, (lacks.content_of here).2⟩

theorem Lacks.trans {first : Files} {lost' : Location → Prop} (later : Lacks now before lost)
    (earlier : Lacks before first lost') :
    Lacks now first fun place => lost place ∨ lost' place where
  home := later.home.trans earlier.home
  gone place isLost := by
    by_cases again : lost place
    · exact later.gone place again
    · rw [later.kept place again]
      exact earlier.gone place (isLost.resolve_left again)
  kept place notLost := by
    rw [later.kept place fun isLost => notLost (Or.inl isLost),
      earlier.kept place fun isLost => notLost (Or.inr isLost)]

theorem lacks_nothing (files : Files) : Lacks files files fun _ => False := ⟨rfl, nofun, fun _ _ => rfl⟩

/-- What a path leads to is there after a loss exactly if the path needs nothing of what has been lost. -/
theorem Lacks.look_iff (lacks : Lacks now before lost) (found : before.look path = .ok content) :
    now.look path = .ok content ↔ ∀ place, lost place → ¬before.Needs path place := by
  constructor
  · rintro still place isLost ⟨_, nowhere⟩
    apply nowhere
    obtain ⟨end_, left, reached, here⟩ := look_eq_ok_iff.mp still
    have within := lacks.isWithin_remove isLost
    obtain ⟨other, there, _⟩ := within.content end_ content here
    exact reaches_iff.mpr ⟨other, look_eq_ok_iff.mpr ⟨end_, left, within.reach reached, there⟩⟩
  · intro unneeded
    obtain ⟨end_, left, reached, here⟩ := look_eq_ok_iff.mp found
    obtain ⟨fine, arrives⟩ := reach_eq_ok_iff.mp reached
    -- without a single lost entry the path leads to the same place, since it leads nowhere else with it
    have each (place : Location) (isLost : lost place) :
        (before.remove place).Arrives mostLinks before.home (stepsAlong path) (end_, left) ∧
          (before.remove place).content? end_ ≠ none := by
      have leads : (before.remove place).reaches path := by
        by_contra nowhere
        exact unneeded place isLost ⟨reaches_iff.mpr ⟨content, found⟩, nowhere⟩
      obtain ⟨other, found'⟩ := reaches_iff.mp leads
      obtain ⟨end', left', reached', here'⟩ := look_eq_ok_iff.mp found'
      obtain ⟨name, above, rfl⟩ : ∃ name above, place = name :: above := by
        cases place with
        | nil => cases lacks.gone [] isLost
        | cons name above => exact ⟨name, above, rfl⟩
      obtain ⟨_, arrives'⟩ := reach_eq_ok_iff.mp reached'
      cases (arrives'.mono (lacks_remove before name above).isWithin).unique arrives
      exact ⟨arrives', by simp [here']⟩
    have notLost : ¬lost end_ := by
      intro isLost
      have stands := (each end_ isLost).2
      cases end_ with
      | nil => cases lacks.gone [] isLost
      | cons name above =>
        rw [content?_remove, if_pos rfl] at stands
        exact stands rfl
    refine look_eq_ok_iff.mpr ⟨end_, left, reach_eq_ok_iff.mpr ⟨fine, ?_⟩, lacks.kept end_ notLost ▸ here⟩
    rw [lacks.home]
    exact (lacks.arrives_iff arrives).mpr fun place isLost => (each place isLost).1

theorem ownLink?_eq_some (own : files.ownLink? path = some place) : ∃ name above target, place = name :: above ∧
    files.content? place = some (.link target) := by
  unfold ownLink? at own
  split at own
  · next above text _ _ =>
    split at own
    · next target stands =>
      cases own
      exact ⟨text, above, target, rfl, stands⟩
    · cases own
  · cases own

theorem lastStep_eq_ok {step : Option Path.Step} (stepped : files.lastStep path = .ok (place, step)) :
    ∃ left, files.Arrives mostLinks files.home (Path.allSteps path).dropLast (place, left) ∧
      (Path.allSteps path).getLast? = step := by
  simp only [lastStep] at stepped
  cases walked : files.walk mostLinks files.home (Path.allSteps path).dropLast with
  | error =>
    rw [walked] at stepped
    cases stepped
  | ok reached =>
    rw [walked] at stepped
    cases stepped
    exact ⟨reached.2, walk_eq_ok_iff.mp walked, rfl⟩

/-- A directory that is named by the last step of a path is where the path leads. -/
theorem reach_of_lastStep {text : String} {above : Location} {left : Nat} (lacks : Lacks now files lost)
    (stepped : now.lastStep path = .ok (above, some (.name text)))
    (stands : now.content? (text :: above) = some .directory)
    (reached : files.reach path = .ok (top, left)) : top = text :: above := by
  obtain ⟨left', arrives, last⟩ := lastStep_eq_ok stepped
  obtain ⟨_, whole⟩ := reach_eq_ok_iff.mp reached
  have stands := (lacks.content_of stands).2
  obtain ⟨tail, eq, rests⟩ : ∃ tail, stepsAlong path = (Path.allSteps path).dropLast ++ .name text :: tail ∧
      (tail = [] ∨ tail = [.here]) := by
    have all := List.dropLast_append_getLast? _ last
    unfold stepsAlong
    split
    · refine ⟨[.here], ?_, Or.inr rfl⟩
      nth_rewrite 1 [← all]
      rw [List.append_assoc, List.singleton_append]
    · exact ⟨[], all.symm, Or.inl rfl⟩
  rw [eq] at whole
  obtain ⟨middle, first, second⟩ := whole.split
  have first' := arrives.mono lacks.isWithin
  rw [lacks.home] at first'
  cases first'.unique first
  cases second with
  | moves _ unnamed => exact absurd rfl (unnamed text)
  | follows _ _ link =>
    rw [stands] at link
    cases link
  | enters _ _ _ _ rest =>
    rcases rests with rfl | rfl
    · cases rest
      rfl
    · cases rest with
      | moves _ _ rest =>
        cases rest
        rfl

theorem not_isInside_self (place : Location) : isInside place place = false := by
  simp [isInside]

theorem removeEmptied_cases {emptied : Files} (done : files.removeEmptied path = .ok emptied) :
    (emptied = files ∧ ∀ above text, files.lastStep path = .ok (above, some (.name text)) →
      files.content? (text :: above) = none) ∨
      ∃ above text, files.lastStep path = .ok (above, some (.name text)) ∧
        files.content? (text :: above) = some .directory ∧
        emptied = files.remove (text :: above) := by
  unfold removeEmptied at done
  split at done
  · next missing =>
    cases done
    refine Or.inl ⟨rfl, fun above text stepped => ?_⟩
    rw [missing] at stepped
    cases stepped
  · cases done
  · next above text stepped =>
    split at done
    · next gone =>
      cases done
      refine Or.inl ⟨rfl, fun above' text' stepped' => ?_⟩
      rw [stepped] at stepped'
      cases stepped'
      exact gone
    · next stands =>
      cases done
      exact Or.inr ⟨above, text, stepped, stands, rfl⟩
    · cases done
  · cases done
  · cases done

theorem sweeps_iff_of_link (own : files.ownLink? path = some top) : files.Sweeps path place ↔ place = top := by
  constructor
  · intro sweeps
    cases sweeps with
    | link own' => exact Option.some.inj (own'.symm.trans own)
    | inside none | top none => cases none.symm.trans own
  · rintro rfl
    exact .link own

theorem sweeps_iff_of_reach {left : Nat} (noLink : files.ownLink? path = none)
    (reached : files.reach path = .ok (top, left)) :
    files.Sweeps path place ↔ isInside place top ∨ place = top ∧ files.content? top = some .directory ∧
      ∃ text above, top = text :: above ∧ (files.clear top).lastStep path = .ok (above, some (.name text)) := by
  constructor
  · intro sweeps
    cases sweeps with
    | link own => cases noLink.symm.trans own
    | inside _ reached' isInside =>
      cases reached.symm.trans reached'
      exact Or.inl isInside
    | top _ reached' stands stepped =>
      cases reached.symm.trans reached'
      exact Or.inr ⟨rfl, stands, _, _, rfl, stepped⟩
  · rintro (isInside | ⟨rfl, stands, text, above, rfl, stepped⟩)
    · exact .inside noLink reached isInside
    · exact .top noLink reached stands stepped

/-- Removing a tree clears no other places than those of the tree, and if it succeeds just these. -/
theorem lacks_removeTree (files : Files) (path : String) :
    ∃ lost, Lacks (files.removeTree path).2 files lost ∧ (∀ place, lost place → files.Sweeps path place) ∧
      ((files.removeTree path).1 = .ok () → ∀ place, files.Sweeps path place → lost place) := by
  unfold removeTree
  split
  · exact ⟨_, lacks_nothing files, nofun, nofun⟩
  · next place _ own =>
    obtain ⟨name, above, _, rfl, _⟩ := ownLink?_eq_some own
    exact ⟨_, lacks_remove files name above, fun _ => (sweeps_iff_of_link own).mpr,
      fun _ _ => (sweeps_iff_of_link own).mp⟩
  · next noLink =>
    split
    · exact ⟨_, lacks_nothing files, nofun, nofun⟩
    · next top left reached =>
      have cleared := lacks_clear files top
      have inside (place : Location) (isInside : isInside place top) : files.Sweeps path place :=
        .inside noLink reached isInside
      split
      · simp only
        split
        · next emptied done =>
          rcases removeEmptied_cases done with ⟨rfl, stays⟩ | ⟨above, text, stepped, stands, rfl⟩
          · refine ⟨_, cleared, inside, fun _ place sweeps => ?_⟩
            rcases (sweeps_iff_of_reach noLink reached).mp sweeps
              with isInside | ⟨rfl, stands, text, above, rfl, stepped⟩
            · exact isInside
            · have gone := stays above text stepped
              rw [content?_clear, not_isInside_self, if_neg Bool.false_ne_true, stands] at gone
              cases gone
          · have isTop := reach_of_lastStep cleared stepped stands reached
            subst isTop
            refine ⟨_, (lacks_remove _ text above).trans cleared, ?_, fun _ place sweeps => ?_⟩
            · rintro place (rfl | isInside)
              · exact .top noLink reached (cleared.content_of stands).2 stepped
              · exact inside place isInside
            · exact ((sweeps_iff_of_reach noLink reached).mp sweeps).symm.imp_left And.left
        · exact ⟨_, cleared, inside, nofun⟩
      · exact ⟨_, lacks_nothing files, nofun, nofun⟩

end ModuleBundler.Files
