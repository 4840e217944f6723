import ModuleBundler.Files.Change
import ModuleBundler.Proofs.KeyedList
import ModuleBundler.Scan

/-!
What walks along paths depend on.

`Files.Arrives` says what a walk does that comes to an end. Such a walk only asks what stands at the places that
it comes to, and of a file it asks nothing more than that it is there. So it arrives at the same place in every
tree in which at least as much stands (`IsWithin`), and in a tree that has lost some of its entries (`Lacks`) it
still arrives exactly if it needs none of them.
-/

namespace ModuleBundler

/-- Where a step leads, links aside. -/
def Path.Step.next (place : Location) : Path.Step → Location
  | .root => []
  | .here => place
  | .up => place.tail
  | .name text => text :: place

/-- What a walk can tell of what stands at a place. -/
def Content.outline : Content → Content
  | .file _ => .file .empty
  | .link target => .link target
  | .directory => .directory

namespace Files

variable {files now before small big : Files} {links left : Nat} {place found : Location} {path text : String}
  {steps : List Path.Step} {content : Content} {arrived : Location × Nat}

@[simp]
theorem content?_nil (files : Files) : files.content? [] = some .directory := rfl

theorem content?_cons (files : Files) (name : String) (above : Location) :
    files.content? (name :: above) = (files.entries.get? (name :: above)).map Entry.content := rfl

theorem content?_put (files : Files) (name : String) (above : Location) (content : Content) (place : Location) :
    (files.put (name :: above) content).content? place = if place =
        name :: above then some content else files.content? place := by
  cases place with
  | nil => rfl
  | cons first rest =>
    rw [content?_cons, put, KeyedList.get?_put, content?_cons]
    split <;> rfl

theorem content?_remove (files : Files) (name : String) (above place : Location) :
    (files.remove (name :: above)).content? place = if place = name :: above then none else files.content? place := by
  cases place with
  | nil => rfl
  | cons first rest =>
    rw [content?_cons, remove, KeyedList.get?_filter _ fun location => decide (location ≠ name :: above),
      content?_cons]
    simp only [decide_eq_true_eq, ite_not]
    split <;> rfl

theorem isInside_nil (outer : Location) : isInside [] outer = false := by
  cases outer <;> simp [isInside]

theorem content?_clear (files : Files) (outer place : Location) :
    (files.clear outer).content? place = if isInside place outer then none else files.content? place := by
  cases place with
  | nil => rw [isInside_nil]; rfl
  | cons first rest =>
    rw [content?_cons, clear, KeyedList.get?_filter _ fun location => !isInside location outer, content?_cons]
    cases isInside (first :: rest) outer <;> rfl

/-- The walk from a place along some steps, with some links left to follow, ends at a place with
so many links left. -/
inductive Arrives (files : Files) : (links : Nat) → (place : Location) → List Path.Step → Location × Nat → Prop
  | stays {links : Nat} {place : Location} : Arrives files links place [] (place, links)
  | moves {links : Nat} {place : Location} {step : Path.Step} {steps : List Path.Step} {arrived : Location × Nat} :
      files.content? place = some .directory → (∀ text, step ≠ .name text) →
      Arrives files links (step.next place) steps arrived → Arrives files links place (step :: steps) arrived
  | follows {links : Nat} {place : Location} {text target : String} {steps : List Path.Step}
      {arrived : Location × Nat} :
      files.content? place = some .directory → text.utf8ByteSize ≤ longestName →
      files.content? (text :: place) = some (.link target) →
      Arrives files links place (stepsAlong target ++ steps) arrived →
      Arrives files (links + 1) place (.name text :: steps) arrived
  | enters {links : Nat} {place : Location} {text : String} {content : Content} {steps : List Path.Step}
      {arrived : Location × Nat} :
      files.content? place = some .directory → text.utf8ByteSize ≤ longestName →
      files.content? (text :: place) = some content → (∀ target, content ≠ .link target) →
      Arrives files links (text :: place) steps arrived → Arrives files links place (.name text :: steps) arrived

theorem walk_eq_ok_iff : files.walk links place steps = .ok arrived ↔ files.Arrives links place steps arrived := by
  constructor
  · intro walked
    fun_induction walk files links place steps with
    | case1 =>
      cases walked
      exact .stays
    | case2 | case3 | case4 | case8 | case9 | case10 => cases walked
    | case5 _ _ _ here ih | case6 _ _ _ here ih | case7 _ _ _ here ih => exact .moves here (by simp) (ih walked)
    | case11 _ _ here _ short _ _ next ih => exact .follows here (Nat.le_of_not_lt short) next (ih walked)
    | case12 _ _ here _ short content links zero succ next ih =>
      refine .enters here (Nat.le_of_not_lt short) next (fun target link => ?_) (ih walked)
      cases links with
      | zero => exact zero target rfl link
      | succ links => exact succ target links rfl link
  · intro arrives
    induction arrives with
    | stays => rw [walk.eq_def]
    | @moves _ _ step _ _ here unnamed _ ih =>
      rw [walk.eq_def]
      cases step with
      | name text => exact absurd rfl (unnamed text)
      | root | here | up =>
        simp only [here]
        exact ih
    | follows here short next _ ih =>
      rw [walk.eq_def]
      simp only [here, if_neg (Nat.not_lt.mpr short), next, ih]
    | @enters _ _ _ content _ _ here short next noLink _ ih =>
      rw [walk.eq_def]
      simp only [here, if_neg (Nat.not_lt.mpr short), next]
      cases content with
      | link target => exact absurd rfl (noLink target)
      | file | directory => exact ih

theorem reach_eq_ok_iff : files.reach path = .ok arrived ↔
    pathError? path = none ∧ files.Arrives mostLinks files.home (stepsAlong path) arrived := by
  unfold reach
  split
  · next error => simp [error]
  · next fine => simp [fine, walk_eq_ok_iff]

theorem look_eq_ok_iff : files.look path = .ok content ↔
    ∃ place left, files.reach path = .ok (place, left) ∧ files.content? place = some content := by
  unfold look
  split
  · next error failed => simp [failed]
  · next place left reached =>
    simp only [reached, Except.ok.injEq, Prod.mk.injEq]
    split
    · next found => simp [found]
    · next none => simp [none]

namespace Arrives

/-- A walk ends in one way only. -/
theorem unique {other : Location × Nat} (first : files.Arrives links place steps arrived)
    (second : files.Arrives links place steps other) : arrived = other := by
  rw [← walk_eq_ok_iff] at first second
  exact Except.ok.inj (first.symm.trans second)

theorem append {middle : Location × Nat} {more : List Path.Step} (first : files.Arrives links place steps middle)
    (second : files.Arrives middle.2 middle.1 more arrived) : files.Arrives links place (steps ++ more) arrived := by
  induction first with
  | stays => exact second
  | moves here unnamed _ ih => exact .moves here unnamed (ih second)
  | follows here short next _ ih => exact .follows here short next (by simpa using ih second)
  | enters here short next noLink _ ih => exact .enters here short next noLink (ih second)

/-- A walk along two rows of steps can be stopped between them. -/
theorem split {more : List Path.Step} (whole : files.Arrives links place (steps ++ more) arrived) :
    ∃ middle : Location × Nat, files.Arrives links place steps middle ∧
        files.Arrives middle.2 middle.1 more arrived := by
  generalize eq : steps ++ more = all at whole
  -- for all first steps, since a link puts those of its target in front of them
  induction whole generalizing steps with
  | stays =>
    obtain ⟨rfl, rfl⟩ := List.append_eq_nil_iff.mp eq
    exact ⟨_, .stays, .stays⟩
  | moves here unnamed rest ih =>
    rcases List.append_eq_cons_iff.mp eq with ⟨rfl, rfl⟩ | ⟨steps, rfl, rfl⟩
    · exact ⟨_, .stays, .moves here unnamed rest⟩
    · obtain ⟨middle, first, second⟩ := ih rfl
      exact ⟨middle, .moves here unnamed first, second⟩
  | follows here short next rest ih =>
    rcases List.append_eq_cons_iff.mp eq with ⟨rfl, rfl⟩ | ⟨steps, rfl, rfl⟩
    · exact ⟨_, .stays, .follows here short next rest⟩
    · obtain ⟨middle, first, second⟩ := ih (List.append_assoc _ _ _)
      exact ⟨middle, .follows here short next first, second⟩
  | enters here short next noLink rest ih =>
    rcases List.append_eq_cons_iff.mp eq with ⟨rfl, rfl⟩ | ⟨steps, rfl, rfl⟩
    · exact ⟨_, .stays, .enters here short next noLink rest⟩
    · obtain ⟨middle, first, second⟩ := ih rfl
      exact ⟨middle, .enters here short next noLink first, second⟩

end Arrives

/-- Whether all that stands in the first tree stands in the second one too, where files may hold other bytes. -/
structure IsWithin (small big : Files) : Prop where
  home : big.home = small.home
  content : ∀ place content, small.content? place = some content →
    ∃ other, big.content? place = some other ∧ other.outline = content.outline

theorem IsWithin.content_eq (within : IsWithin small big) (here : small.content? place = some content)
    (noFile : ∀ bytes, content ≠ .file bytes) : big.content? place = some content := by
  obtain ⟨other, there, same⟩ := within.content place content here
  cases content with
  | file bytes => exact absurd rfl (noFile bytes)
  | link | directory =>
    cases other <;> cases same
    exact there

/-- A walk that arrives does so in a larger tree as well. -/
theorem Arrives.mono (within : IsWithin small big) (arrives : small.Arrives links place steps arrived) :
    big.Arrives links place steps arrived := by
  induction arrives with
  | stays => exact .stays
  | moves here unnamed _ ih => exact .moves (within.content_eq here nofun) unnamed ih
  | follows here short next _ ih =>
    exact .follows (within.content_eq here nofun) short (within.content_eq next nofun) ih
  | @enters _ _ _ content _ _ here short next noLink _ ih =>
    obtain ⟨other, there, same⟩ := within.content _ _ next
    refine .enters (within.content_eq here nofun) short there (fun target link => ?_) ih
    subst link
    cases content with
    | link target' => exact noLink target' rfl
    | file | directory => cases same

theorem IsWithin.reach (within : IsWithin small big) (reached : small.reach path = .ok arrived) :
    big.reach path = .ok arrived := by
  obtain ⟨fine, arrives⟩ := reach_eq_ok_iff.mp reached
  exact reach_eq_ok_iff.mpr ⟨fine, within.home ▸ arrives.mono within⟩

/-- Whether the same stands in two trees, where files may hold other bytes. -/
structure SameOutline (now files : Files) : Prop where
  home : now.home = files.home
  outline : ∀ place, (now.content? place).map Content.outline = (files.content? place).map Content.outline

theorem SameOutline.symm (same : SameOutline now files) : SameOutline files now :=
  ⟨same.home.symm, fun place => (same.outline place).symm⟩

theorem SameOutline.isWithin (same : SameOutline now files) : IsWithin files now where
  home := same.home
  content place content here := by
    have outline := same.outline place
    rw [here, Option.map_some, Option.map_eq_some_iff] at outline
    exact outline

theorem SameOutline.reach_iff (same : SameOutline now files) :
    now.reach path = .ok arrived ↔ files.reach path = .ok arrived :=
  ⟨same.symm.isWithin.reach, same.isWithin.reach⟩

theorem isFile_iff : files.isFile path ↔ ∃ bytes, files.look path = .ok (.file bytes) := by
  unfold isFile
  split
  · next bytes found => simp [found]
  · next other =>
    constructor
    · nofun
    · rintro ⟨bytes, found⟩
      exact absurd found (other bytes)

theorem SameOutline.isFile_eq (same : SameOutline now files) (path : String) :
    now.isFile path = files.isFile path := by
  have onward {now files : Files} (same : SameOutline now files) (isFile : now.isFile path) : files.isFile path := by
    obtain ⟨bytes, found⟩ := isFile_iff.mp isFile
    obtain ⟨place, left, reached, here⟩ := look_eq_ok_iff.mp found
    obtain ⟨other, there, outline⟩ := same.symm.isWithin.content place _ here
    cases other with
    | file bytes => exact isFile_iff.mpr ⟨bytes, look_eq_ok_iff.mpr ⟨place, left, same.reach_iff.mp reached, there⟩⟩
    | link | directory => cases outline
  exact Bool.eq_iff_iff.mpr ⟨onward same, onward same.symm⟩

/-- Whether the first tree is the second one without what stands at some places. -/
structure Lacks (now before : Files) (lost : Location → Prop) : Prop where
  home : now.home = before.home
  gone : ∀ place, lost place → now.content? place = none
  kept : ∀ place, ¬lost place → now.content? place = before.content? place

variable {lost : Location → Prop}

theorem Lacks.content_of (lacks : Lacks now before lost) (here : now.content? place = some content) :
    ¬lost place ∧ before.content? place = some content := by
  have notLost : ¬lost place := fun isLost => by
    rw [lacks.gone place isLost] at here
    cases here
  exact ⟨notLost, lacks.kept place notLost ▸ here⟩

theorem Lacks.isWithin (lacks : Lacks now before lost) : IsWithin now before where
  home := lacks.home.symm
  content _ content here := ⟨content, (lacks.content_of here).2, rfl⟩

theorem lacks_remove (files : Files) (name : String) (above : Location) :
    Lacks (files.remove (name :: above)) files (· = name :: above) where
  home := rfl
  gone _ same := by rw [content?_remove, if_pos same]
  kept _ other := by rw [content?_remove, if_neg other]

theorem lacks_clear (files : Files) (outer : Location) : Lacks (files.clear outer) files (isInside · outer) where
  home := rfl
  gone _ inside := by rw [content?_clear, if_pos inside]
  kept _ outside := by rw [content?_clear, if_neg outside]

/-- What is lost is missing from the tree without a single entry of it as well. -/
theorem Lacks.isWithin_remove (lacks : Lacks now before lost) (isLost : lost place) :
    IsWithin now (before.remove place) := by
  cases place with
  | nil => cases lacks.gone [] isLost
  | cons name above =>
    refine ⟨lacks.home.symm, fun place content here => ⟨content, ?_, rfl⟩⟩
    obtain ⟨notLost, there⟩ := lacks.content_of here
    rw [content?_remove, if_neg, there]
    rintro rfl
    exact notLost isLost

/-- Nothing stands at a place from which an entry has been removed, unless it is the root. -/
theorem not_arrives_remove (away : place ≠ []) (nonempty : steps ≠ []) :
    ¬(files.remove place).Arrives links place steps arrived := by
  obtain ⟨name, above, rfl⟩ := List.exists_cons_of_ne_nil away
  intro arrives
  cases arrives with
  | stays => exact nonempty rfl
  | moves here | follows here | enters here =>
    rw [content?_remove, if_pos rfl] at here
    cases here

/-- A walk arrives without what is lost exactly if it arrives without each single entry of it. -/
theorem Lacks.arrives_iff (lacks : Lacks now before lost) (arrives : before.Arrives links place steps arrived) :
    now.Arrives links place steps arrived ↔ ∀ p, lost p → (before.remove p).Arrives links place steps arrived := by
  constructor
  · intro still p isLost
    exact still.mono (lacks.isWithin_remove isLost)
  · intro each
    have away {p : Location} (isLost : lost p) : p ≠ [] := by
      rintro rfl
      cases lacks.gone [] isLost
    induction arrives with
    | stays => exact .stays
    | @moves links place step steps arrived here unnamed _ ih =>
      have notLost : ¬lost place := fun isLost => not_arrives_remove (away isLost) (by simp) (each place isLost)
      refine .moves (lacks.kept place notLost ▸ here) unnamed (ih fun p isLost => ?_)
      cases each p isLost with
      | moves _ _ rest => exact rest
      | follows | enters => exact absurd rfl (unnamed _)
    | @follows links place text target steps arrived here short next _ ih =>
      have notLost : ¬lost place := fun isLost => not_arrives_remove (away isLost) (by simp) (each place isLost)
      have onward (p : Location) (isLost : lost p) :
        (before.remove p).content? (text :: place) = some (.link target) ∧
          (before.remove p).Arrives links place (stepsAlong target ++ steps) arrived := by
        obtain ⟨name, above, rfl⟩ := List.exists_cons_of_ne_nil (away isLost)
        have same {content : Content} (found : (before.remove (name :: above)).content? (text :: place) =
          some content) :
            content = .link target := by
          have found := ((lacks_remove before name above).content_of found).2
          rw [next] at found
          exact (Option.some.inj found).symm
        cases each _ isLost with
        | moves _ unnamed => exact absurd rfl (unnamed text)
        | follows _ _ found rest =>
          cases same found
          exact ⟨found, rest⟩
        | enters _ _ found noLink => exact absurd (same found) (noLink target)
      have nextNotLost : ¬lost (text :: place) := fun isLost => by
        have found := (onward _ isLost).1
        rw [content?_remove, if_pos rfl] at found
        cases found
      exact .follows (lacks.kept place notLost ▸ here) short (lacks.kept _ nextNotLost ▸ next)
        (ih fun p isLost => (onward p isLost).2)
    | @enters links place text content steps arrived here short next noLink _ ih =>
      have notLost : ¬lost place := fun isLost => not_arrives_remove (away isLost) (by simp) (each place isLost)
      have onward (p : Location) (isLost : lost p) : (before.remove p).content? (text :: place) = some content ∧
          (before.remove p).Arrives links (text :: place) steps arrived := by
        obtain ⟨name, above, rfl⟩ := List.exists_cons_of_ne_nil (away isLost)
        have same {other : Content} (found : (before.remove (name :: above)).content? (text :: place) = some other) :
            other = content := by
          have found := ((lacks_remove before name above).content_of found).2
          rw [next] at found
          exact (Option.some.inj found).symm
        cases each _ isLost with
        | moves _ unnamed => exact absurd rfl (unnamed text)
        | follows _ _ found => exact absurd (same found).symm (noLink _)
        | enters _ _ found _ rest => exact ⟨same found ▸ found, rest⟩
      have nextNotLost : ¬lost (text :: place) := fun isLost => by
        have found := (onward _ isLost).1
        rw [content?_remove, if_pos rfl] at found
        cases found
      exact .enters (lacks.kept place notLost ▸ here) short (lacks.kept _ nextNotLost ▸ next) noLink
        (ih fun p isLost => (onward p isLost).2)

end Files

end ModuleBundler
