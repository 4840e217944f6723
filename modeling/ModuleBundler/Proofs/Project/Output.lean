import ModuleBundler.Proofs.Graph.Order
import ModuleBundler.Proofs.Project.Cleanup
import ModuleBundler.Proofs.Project.Phases

namespace ModuleBundler.Project

variable {files now : Files} {directory name path : String} {names front back : List String} {content : Content}

/-- What a path leads to is there after cleaning up exactly if no entry that is removed has been needed for it,
each name taken when those before it have been removed. -/
theorem look_cleanup_iff (ends : (cleanup directory names).Ends files (.ok ()) now)
    (found : files.look path = .ok content) :
    now.look path = .ok content ↔ ∀ front name back, names = front ++ name :: back → ∀ place,
      IsCleaned (cleaned files directory front) directory name place →
          ¬(cleaned files directory front).Needs path place := by
  induction names generalizing files with
  | nil =>
    obtain ⟨_, rfl⟩ := Work.pure_ends_iff.mp ends
    refine iff_of_true found fun front name back eq => ?_
    simp at eq
  | cons first names ih =>
    rw [cleanup_cons] at ends
    obtain ⟨_, middle, begins, rest⟩ := Work.bind_ends_ok_iff.mp ends
    obtain ⟨lost, lacks, onlyThese, all⟩ := lacks_cleanupOne begins
    constructor
    · intro still front name back eq place isCleaned
      -- what is there in the end has been there all the time
      have between := look_of_cleanup rest still
      cases front with
      | nil =>
        obtain ⟨rfl, rfl⟩ := List.cons.inj eq
        exact (lacks.look_iff found).mp between place (all rfl place isCleaned)
      | cons _ front =>
        obtain ⟨rfl, names_eq⟩ := List.cons.inj eq
        rw [cleaned_cons begins] at isCleaned ⊢
        exact (ih rest between).mp still front name back names_eq place isCleaned
    · intro unneeded
      have between : middle.look path = .ok content :=
        (lacks.look_iff found).mpr fun place isLost => unneeded [] first names rfl place (onlyThese place isLost)
      refine (ih rest between).mpr fun front name back eq place isCleaned => ?_
      have later := unneeded (first :: front) name back (congrArg (first :: ·) eq) place
      rw [cleaned_cons begins] at later
      exact later isCleaned

/-- A build that succeeds has written the text of its bundle, and this text is still there exactly if no entry
that cleaning up removes stands on the way to it. -/
theorem bundle_left_iff {o : Options} {report : Report} (built : (bundle o).Ends files (.ok report) now) :
    ∃ a assembled written, (assemble o).Ends files (.ok a) assembled ∧
      assembled.write report.output a.bundle.text.toUTF8 = .ok written ∧
      (now.readText report.output = .ok a.bundle.text ↔
        ∀ front directory back, o.cleanDirs = front ++ directory :: back →
        ∀ place, IsCleaned (cleaned written o.outPath front) o.outPath directory place →
          ¬(cleaned written o.outPath front).Needs report.output place) := by
  obtain ⟨a, assembled, written, isAssembly, isWritten, isClean, rfl⟩ := bundle_ends_ok_iff.mp built
  refine ⟨a, assembled, written, isAssembly, isWritten, ?_⟩
  rw [Files.readText_eq_ok_iff]
  exact look_cleanup_iff isClean (Files.look_of_write isWritten)

def mainBundle : Bundle := { entry := some "main();" }

/-- The tree with one module when the bundle has been written over this module. -/
def mainWritten : Files := Files.oneModule.put ["main.js", "core", "dist", "w"] (.file mainBundle.text.toUTF8)

/-- Options by which the module of the tree is the entry module. -/
def mainEntry (cleanDirs : List String) : Options := { entry := "core/main.js", cleanDirs := cleanDirs }

variable (cleanDirs : List String)

theorem outPath_mainEntry : (mainEntry cleanDirs).outPath = "./dist" := (by decide : Path.join "." "dist" = "./dist")

theorem entryPath_mainEntry : (mainEntry cleanDirs).entryPath = main.location :=
  (by decide : Path.join (Path.join "." "dist") "core/main.js" = main.location)

theorem entryKey_mainEntry : (mainEntry cleanDirs).entryKey = main.relativePath := by
  rw [Options.entryKey, entryPath_mainEntry, outPath_mainEntry]
  decide

theorem assemble_mainEntry :
    (assemble (mainEntry cleanDirs)).Ends .oneModule
    (.ok ⟨⟨.empty, [main], 0⟩, .empty, [], mainBundle⟩) .oneModule := by
  refine assemble_ends_ok_iff.mpr ⟨embedAssets_oneModule _ _, ?_, ?_, {}, rfl, ?_⟩
  · have others : [main].filter (·.relativePath ≠ main.relativePath) = [] := by decide
    rw [entryKey_mainEntry]
    exact graphOf_ends_ok_iff.mpr ⟨rfl, [], others ▸ .nil, rfl⟩
  · have noOrder : Graph.empty.order = [] := List.Perm.eq_nil (Graph.order_perm_keys _)
    exact (congrArg (List.filterMap _) noOrder).symm
  · have plain : (plainText main.relativePath "main();").result = .ok "main();" :=
      Attempt.result_eq_ok (by decide +kernel)
    refine addEntry_ends_ok_iff.mpr ⟨rfl, ?_⟩
    rw [entryPath_mainEntry, entryKey_mainEntry, if_pos]
    · exact ⟨_, _, readText_main, plain, rfl⟩
    · rw [Files.isFile, Files.readText_eq_ok_iff.mp readText_main]

theorem write_mainEntry : Files.oneModule.write (mainEntry cleanDirs).outputPath mainBundle.text.toUTF8 =
    .ok mainWritten := by
  have place : Files.oneModule.placeOf main.location = ["main.js", "core", "dist", "w"] := by decide
  have last : (Path.allSteps main.location).getLast? = some (.name "main.js") := by decide
  have written := Files.write_of_leads Files.oneModule_isPlain.noLinks (by decide) (by decide) last (by decide)
    (by decide) rfl (by rw [place]; nofun) mainBundle.text.toUTF8
  rw [place] at written
  exact (congrArg (Files.oneModule.write · mainBundle.text.toUTF8) (entryPath_mainEntry cleanDirs)).trans written

/-- Where nothing is cleaned up, the bundle is left. -/
theorem bundle_left_without_cleaning : ∃ report now, (bundle (mainEntry [])).Ends .oneModule (.ok report) now ∧
    now.readText report.output = .ok mainBundle.text := by
  have built := bundle_ends_ok_iff.mpr ⟨_, _, _, assemble_mainEntry [], write_mainEntry [],
    Work.pure_ends_iff.mpr ⟨rfl, rfl⟩, rfl⟩
  obtain ⟨a, assembled, written, isAssembly, _, left_iff⟩ := bundle_left_iff built
  obtain ⟨same, rfl⟩ := isAssembly.unique (assemble_mainEntry [])
  cases same
  exact ⟨_, _, built, left_iff.mpr fun front directory back eq => by simp [mainEntry] at eq⟩

def mainRemoved : Files := (mainWritten.clear ["core", "dist", "w"]).remove ["core", "dist", "w"]

theorem mainWritten_noLinks : mainWritten.NoLinks := Files.oneModule_isPlain.noLinks.put _ _ _

theorem mainRemoved_noLinks : mainRemoved.NoLinks := (mainWritten_noLinks.clear _).of_lacks (Files.lacks_remove _ _ _)

theorem cleanup_mainWritten : (cleanup "./dist" ["core", "graphics", "scenes", "types"]).Ends mainWritten
    (.ok ()) mainRemoved := by
  have core : mainWritten.placeOf (Path.join "./dist" "core") = ["core", "dist", "w"] := by decide
  have last : (Path.allSteps (Path.join "./dist" "core")).getLast? = some (.name "core") := by decide
  have removed := Files.removeTree_of_leads mainWritten_noLinks (by decide) last (by decide) (core ▸ rfl) (by decide)
  rw [core] at removed
  refine cleanup_cons_ends (cleanupOne_of_removeTree ?_ removed) (cleanup_of_not_reaches fun name member => ?_)
  · rw [reaches_eq_leads mainWritten_noLinks (by decide)]
    decide
  · refine not_reaches_of_not_leads mainRemoved_noLinks ?_
    simp only [List.mem_cons, List.not_mem_nil, or_false] at member
    rcases member with rfl | rfl | rfl <;> decide

/-- A bundle that is written into one of the directories is removed with it, and the build succeeds. -/
theorem bundle_removed : ∃ report now, (bundle { entry := "core/main.js" }).Ends .oneModule (.ok report) now ∧
    ∀ text, now.readText report.output ≠ .ok text := by
  have cleaned := cleanup_mainWritten
  rw [← outPath_mainEntry ["core", "graphics", "scenes", "types"]] at cleaned
  refine ⟨_, mainRemoved, bundle_ends_ok_iff.mpr ⟨_, _, _, assemble_mainEntry _, write_mainEntry _, cleaned, rfl⟩,
    fun text found => ?_⟩
  have through := ((Files.look_iff_leads mainRemoved_noLinks).mp (Files.readText_eq_ok_iff.mp found)).2.1
  exact absurd through (by decide)

end ModuleBundler.Project
