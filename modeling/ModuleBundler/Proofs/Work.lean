import ModuleBundler.Work

/-!
How work ends.

`Work.Ends` says what work on files comes to, events aside: its value or its failure, and the files as they are
then. Work that consists of steps ends as the steps do, one after the other (`bind_ends_iff`).
-/

namespace ModuleBundler

variable {α β : Type} {files now : Files}

namespace Attempt

theorem result_bind (x : Attempt α) (f : α → Attempt β) : (x >>= f).result = x.result.bind fun a => (f a).result := by
  obtain ⟨_ | a, events⟩ := x <;> rfl

theorem bind_eq_ok_iff {x : Attempt α} {f : α → Attempt β} {b : β} :
    (x >>= f).result = .ok b ↔ ∃ a, x.result = .ok a ∧ (f a).result = .ok b := by
  obtain ⟨_ | a, events⟩ := x
  · simp [result_bind, Except.bind]
  · simp [result_bind, Except.bind]

/-- A value that is looked for by computing it. -/
theorem result_eq_ok {x : Attempt α} {a : α} (value : x.result.toOption = some a) : x.result = .ok a := by
  cases result : x.result with
  | ok b =>
    rw [result] at value
    exact congrArg _ (Option.some.inj value)
  | error =>
    rw [result] at value
    cases value

end Attempt

namespace Work

@[ext]
theorem ext {w w' : Work α} (same : ∀ files, w.run files = w'.run files) : w = w' := by
  obtain ⟨run⟩ := w
  obtain ⟨run'⟩ := w'
  exact congrArg Work.mk (funext same)

theorem run_bind (w : Work α) (f : α → Work β) (files : Files) :
    (w >>= f).run files = (Work.bind w f).run files := rfl

instance : LawfulMonad Work := LawfulMonad.mk' Work
  (by
    intro α w
    ext files : 1
    simp only [Functor.map, Work.bind]
    rcases w.run files with ⟨_ | _, now, events⟩ <;> simp)
  (by
    intro α β a f
    rfl)
  (by
    intro α β γ w f g
    ext files : 1
    simp only [run_bind, Work.bind]
    rcases w.run files with ⟨_ | a, now, events⟩
    · rfl
    · simp only
      rcases (f a).run now with ⟨_ | b, later, events'⟩
      · rfl
      · simp)

/-- Work on some files has a value or fails, and leaves files behind. -/
def Ends (w : Work α) (files : Files) (result : Except Failure α) (now : Files) : Prop :=
  (w.run files).result = result ∧ (w.run files).files = now

variable {w : Work α} {f : α → Work β} {result : Except Failure α}

theorem ends_iff : w.Ends files result now ↔ result = (w.run files).result ∧ now = (w.run files).files :=
  and_congr eq_comm eq_comm

theorem ends (w : Work α) (files : Files) : w.Ends files (w.run files).result (w.run files).files := ⟨rfl, rfl⟩

/-- Work ends in one way only. -/
theorem Ends.unique {other : Except Failure α} {now' : Files} (first : w.Ends files result now)
    (second : w.Ends files other now') :
    result = other ∧ now = now' := by
  obtain ⟨rfl, rfl⟩ := first
  exact second

theorem bind_ends_iff {result : Except Failure β} : (w >>= f).Ends files result now ↔
    (∃ a middle, w.Ends files (.ok a) middle ∧ (f a).Ends middle result now) ∨
      ∃ failure, w.Ends files (.error failure) now ∧ result = .error failure := by
  simp only [ends_iff, run_bind, Work.bind]
  cases (w.run files).result with
  | ok a =>
    constructor
    · exact fun same => Or.inl ⟨a, _, ⟨rfl, rfl⟩, same⟩
    · rintro (⟨a, middle, ⟨same, rfl⟩, rest⟩ | ⟨failure, ⟨no, _⟩, _⟩)
      · cases same
        exact rest
      · cases no
  | error failure =>
    constructor
    · rintro ⟨rfl, rfl⟩
      exact Or.inr ⟨failure, ⟨rfl, rfl⟩, rfl⟩
    · rintro (⟨a, middle, ⟨no, _⟩, _⟩ | ⟨failure, ⟨same, rfl⟩, rfl⟩)
      · cases no
      · cases same
        exact ⟨rfl, rfl⟩

theorem bind_ends_ok_iff {b : β} : (w >>= f).Ends files (.ok b) now ↔
    ∃ a middle, w.Ends files (.ok a) middle ∧ (f a).Ends middle (.ok b) now := by
  rw [bind_ends_iff, or_iff_left]
  rintro ⟨failure, _, no⟩
  cases no

@[simp]
theorem pure_ends_iff {a : α} : (pure a : Work α).Ends files result now ↔ result = .ok a ∧ now = files :=
  ends_iff

/-- Work that only changes its value at the end. -/
theorem bind_pure_ends_iff {g : α → β} {result : Except Failure β} :
    (w >>= fun a => pure (g a)).Ends files result now ↔
    ∃ first, w.Ends files first now ∧ result = first.map g := by
  rw [bind_ends_iff]
  constructor
  · rintro (⟨a, middle, first, last⟩ | ⟨failure, first, rfl⟩)
    · obtain ⟨rfl, rfl⟩ := pure_ends_iff.mp last
      exact ⟨.ok a, first, rfl⟩
    · exact ⟨.error failure, first, rfl⟩
  · rintro ⟨_ | a, first, rfl⟩
    · exact Or.inr ⟨_, first, rfl⟩
    · exact Or.inl ⟨a, now, first, pure_ends_iff.mpr ⟨rfl, rfl⟩⟩

/-- Work that begins with a failure does nothing else. -/
theorem Ends.bind_error {failure : Failure} (failed : w.Ends files (.error failure) now) :
    (w >>= f).Ends files (.error failure) now :=
  bind_ends_iff.mpr (Or.inr ⟨failure, failed, rfl⟩)

/-- Nothing but an attempt, which leaves the files as they are. -/
@[simp]
theorem lift_ends_iff {x : Attempt α} : (liftM x : Work α).Ends files result now ↔ result = x.result ∧ now = files :=
  ends_iff

@[simp]
theorem noted_ends_iff {x : Noted α} : (liftM x : Work α).Ends files result now ↔
    result = .ok x.value ∧ now = files :=
  ends_iff

@[simp]
theorem ofAttempt_ends_iff {g : Files → Attempt α} : (ofAttempt g).Ends files result now ↔
    result = (g files).result ∧ now = files :=
  ends_iff

/-- Work that begins with a look or a note ends as what comes next does. -/
theorem look_bind_ends_iff {g : Files → α} {result : Except Failure β} :
    (look g >>= f).Ends files result now ↔ (f (g files)).Ends files result now :=
  Iff.rfl

theorem noted_bind_ends_iff {x : Noted α} {result : Except Failure β} :
    ((liftM x : Work α) >>= f).Ends files result now ↔ (f x.value).Ends files result now :=
  Iff.rfl

/-- Whether work leaves all files as they are, however it ends. -/
def OnlyReads (w : Work α) : Prop := ∀ files, (w.run files).files = files

theorem OnlyReads.files_eq (reads : w.OnlyReads) (ends : w.Ends files result now) : now = files := by
  rw [← ends.2, reads files]

theorem OnlyReads.bind (first : w.OnlyReads) (then_ : ∀ a, (f a).OnlyReads) : (w >>= f).OnlyReads := by
  intro files
  rcases bind_ends_iff.mp ((w >>= f).ends files) with ⟨a, middle, ends, rest⟩ | ⟨failure, ends, _⟩
  · rw [(then_ a).files_eq rest, first.files_eq ends]
  · exact first.files_eq ends

/-- Work that goes on with nothing but reading leaves the files as they were when it went on. -/
theorem OnlyReads.ends_first {result : Except Failure β} (then_ : ∀ a, (f a).OnlyReads)
    (ends : (w >>= f).Ends files result now) :
    ∃ first, w.Ends files first now := by
  rcases bind_ends_iff.mp ends with ⟨a, middle, ends, rest⟩ | ⟨failure, ends, _⟩
  · exact ⟨.ok a, (then_ a).files_eq rest ▸ ends⟩
  · exact ⟨.error failure, ends⟩

theorem onlyReads_pure (a : α) : (pure a : Work α).OnlyReads := fun _ => rfl

theorem onlyReads_lift (x : Attempt α) : (liftM x : Work α).OnlyReads := fun _ => rfl

theorem onlyReads_noted (x : Noted α) : (liftM x : Work α).OnlyReads := fun _ => rfl

theorem onlyReads_look (g : Files → α) : (look g).OnlyReads := fun _ => rfl

theorem onlyReads_ofAttempt (g : Files → Attempt α) : (ofAttempt g).OnlyReads := fun _ => rfl

variable {task : FileTask} {path text : String}

theorem onlyReads_readText : (readText task path).OnlyReads := onlyReads_ofAttempt _

theorem readText_ends_ok_iff : (readText task path).Ends files (.ok text) now ↔
    files.readText path = .ok text ∧ now = files := by
  rw [readText, ofAttempt_ends_iff]
  cases files.readText path with
  | ok found =>
    refine and_congr_left' ⟨fun same => ?_, fun same => ?_⟩
    · cases same
      rfl
    · cases same
      rfl
  | error cause =>
    refine and_congr_left' ⟨fun same => ?_, fun same => ?_⟩ <;> cases same

theorem readText_ends_error {cause : FileError} (failed : files.readText path = .error cause) :
    (readText task path).Ends files (.error (.file task path cause)) files := by
  rw [readText, ofAttempt_ends_iff, failed]
  exact ⟨rfl, rfl⟩

theorem writeText_ends_ok_iff {u : Unit} : (writeText task path text).Ends files (.ok u) now ↔
    files.write path text.toUTF8 = .ok now := by
  simp only [Ends, writeText]
  cases files.write path text.toUTF8 with
  | ok files => simp
  | error cause => simp

theorem writeText_ends_error {failure : Failure} (ends : (writeText task path text).Ends files (.error failure) now) :
    now = files ∧ ∃ cause, failure = .file task path cause := by
  simp only [Ends, writeText] at ends
  cases written : files.write path text.toUTF8 with
  | ok files =>
    rw [written] at ends
    cases ends.1
  | error cause =>
    rw [written] at ends
    obtain ⟨failed, rfl⟩ := ends
    cases failed
    exact ⟨rfl, cause, rfl⟩

theorem removeTree_ends_ok_iff {u : Unit} : (removeTree path).Ends files (.ok u) now ↔
    files.removeTree path = (.ok (), now) := by
  simp only [Ends, removeTree]
  obtain ⟨_ | _, left⟩ := files.removeTree path
  · simp
  · simp

theorem removeTree_ends {result : Except Failure Unit} (ends : (removeTree path).Ends files result now) :
    (files.removeTree path).2 = now := by
  simp only [Ends, removeTree] at ends
  rcases removed : files.removeTree path with ⟨_ | _, left⟩
  · rw [removed] at ends
    exact ends.2
  · rw [removed] at ends
    exact ends.2

end Work

end ModuleBundler
