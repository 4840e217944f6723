import Mathlib.Data.List.Infix
import ModuleBundler.Proofs.Scan

/-!
What is left out of a scan.

A scan of a directory by paths from that directory leaves out an excluded directory with all that it holds. The
path of a file goes on from the paths of all directories on its way, so whatever excludes one of these excludes
the file as well. So the scan finds the files whose own paths are not excluded (`Scan.run_exclude`), through links
as well.
-/

namespace ModuleBundler

namespace Path

theorem intercalate_prefix_append (mark : List Char) (pieces more : List (List Char)) :
    mark.intercalate pieces <+: mark.intercalate (pieces ++ more) := by
  induction pieces with
  | nil => exact List.nil_prefix
  | cons piece pieces ih =>
    cases pieces with
    | nil =>
      cases more with
      | nil => exact List.prefix_refl _
      | cons next more =>
        rw [List.intercalate_singleton, List.singleton_append, List.intercalate_cons_cons, List.append_assoc]
        exact List.prefix_append _ _
    | cons next pieces =>
      rw [List.intercalate_cons_cons, List.cons_append, List.cons_append, List.intercalate_cons_cons]
      exact (List.prefix_append_right_inj _).mpr ih

/-- The path of an entry begins with the path of each directory on its way. -/
theorem slash_intercalate_prefix_append (names more : List String) :
    ("/".intercalate names).toList <+: ("/".intercalate (names ++ more)).toList := by
  rw [toList_slash_intercalate, toList_slash_intercalate, List.map_append]
  exact intercalate_prefix_append _ _ _

end Path

namespace Scan

variable {scan : Scan} {files : Files} {links : Nat} {place : Location} {path name : String}
  {names above : List String}
  {found : List SourceFile} {file : SourceFile}

/-- What excludes a directory excludes all that is below it. -/
theorem isExcluded_append (excluded : scan.isExcluded ("/".intercalate names) = true) (more : List String) :
    scan.isExcluded ("/".intercalate (names ++ more)) = true := by
  obtain ⟨part, member, occurs⟩ := List.any_eq_true.mp excluded
  refine List.any_eq_true.mpr ⟨part, member, Text.occursIn_iff.mpr ?_⟩
  exact (Text.occursIn_iff.mp occurs).trans (Path.slash_intercalate_prefix_append names more).isInfix

theorem isExcluded_iff : scan.isExcluded path = true ↔ ∃ part ∈ scan.exclude, part.toList <:+: path.toList := by
  rw [isExcluded, List.any_eq_true]
  simp only [Text.occursIn_iff]

/-- The scan that leaves nothing out. -/
def whole (scan : Scan) : Scan := { scan with exclude := [] }

@[simp]
theorem fileAt_whole (scan : Scan) (path name : String) : scan.whole.fileAt path name = scan.fileAt path name := rfl

@[simp]
theorem isWanted_whole (scan : Scan) (name : String) : scan.whole.isWanted name = scan.isWanted name := rfl

/-- Below an excluded directory nothing is kept. -/
theorem Collects.filter_eq_nil (collects : Collects scan.whole files links place
    ((above ++ [name]).foldl Path.join scan.base) names found)
    (named : files.HasNames) (nonempty : scan.base ≠ "") (areAbove : ∀ text ∈ above ++ [name], Path.IsName text)
    (areNames : ∀ name ∈ names, Path.IsName name)
    (excluded : scan.isExcluded (scan.fileAt (above.foldl Path.join scan.base) name).relativePath = true) :
    found.filter (fun file => !scan.isExcluded file.relativePath) = [] := by
  refine List.filter_eq_nil_iff.mpr fun file member kept => ?_
  obtain ⟨directories, last, rfl, areBelow, _⟩ := collects.exists_names named areNames member
  have all : ∀ text ∈ above ++ [name] ++ directories ++ [last], Path.IsName text := by
    rw [List.append_assoc]
    exact List.forall_mem_append.mpr ⟨areAbove, areBelow⟩
  rw [relativePath_fileAt nonempty areAbove] at excluded
  rw [fileAt_whole, ← List.foldl_append, relativePath_fileAt nonempty all, List.append_assoc,
    isExcluded_append excluded] at kept
  cases kept

/-- A scan finds what the scan that leaves nothing out finds, but for the files whose own paths are excluded. -/
theorem Collects.exclude (collects : Collects scan.whole files links place path names found) (named : files.HasNames)
    (nonempty : scan.base ≠ "") (start : path = above.foldl Path.join scan.base)
    (areAbove : ∀ text ∈ above, Path.IsName text)
    (areNames : ∀ name ∈ names, Path.IsName name) :
    Collects scan files links place path names (found.filter fun file => !scan.isExcluded file.relativePath) := by
  -- the names from the base to the directory go along, since they tell what excludes it
  induction collects generalizing above with
  | done => exact .done
  | excluded isExcluded => cases isExcluded
  | @directory _ _ _ _ path name _ inner rest _ fine walked here isInner _ ihInner ihRest =>
    obtain ⟨isName, others⟩ := List.forall_mem_cons.mp areNames
    have areAbove' : ∀ text ∈ above ++ [name], Path.IsName text := by
      simpa [or_imp, forall_and] using ⟨areAbove, isName⟩
    have start' : Path.join path name = (above ++ [name]).foldl Path.join scan.base := by
      rw [List.foldl_concat, start]
    have isRest := ihRest start areAbove others
    rw [List.filter_append]
    cases excluded : scan.isExcluded (scan.fileAt path name).relativePath with
    | true =>
      rw [start'] at isInner
      rw [start] at excluded
      rw [isInner.filter_eq_nil named nonempty areAbove' (fun _ => named.isName) excluded, List.nil_append]
      exact .excluded (start ▸ excluded) isRest
    | false => exact .directory excluded fine walked here (ihInner start' areAbove' fun _ => named.isName) isRest
  | @file _ _ _ _ path name _ _ rest _ fine walked here noDirectory _ ih =>
    have isRest := ih start areAbove (List.forall_mem_cons.mp areNames).2
    rw [isWanted_whole, fileAt_whole, apply_ite (List.filter _)]
    cases excluded : scan.isExcluded (scan.fileAt path name).relativePath with
    | true =>
      rw [List.filter_cons_of_neg (by simpa using excluded), ite_self]
      exact .excluded excluded isRest
    | false =>
      rw [List.filter_cons_of_pos (by simpa using excluded)]
      exact .file excluded fine walked here noDirectory isRest

/-- A scan with exclusions finds, in the same order, the files of the scan without them whose own paths hold none
of the excluded texts: it succeeds if that scan does. -/
theorem run_exclude {extensions exclude : List String} (named : files.HasNames)
    (whole : (run ⟨path, extensions, []⟩ files path).result = .ok found) :
    (run ⟨path, extensions, exclude⟩ files path).result =
      .ok (found.filter fun file => ∀ part ∈ exclude, ¬part.toList <:+: file.relativePath.toList) := by
  have keeps : (fun file : SourceFile => decide (∀ part ∈ exclude, ¬part.toList <:+: file.relativePath.toList)) =
      fun file => !(Scan.mk path extensions exclude).isExcluded file.relativePath := by
    funext file
    rw [Bool.eq_iff_iff, Bool.not_eq_true', ← Bool.not_eq_true, isExcluded_iff]
    simp
  rw [keeps]
  rcases run_eq_ok_iff.mp whole with ⟨nowhere, rfl⟩ | ⟨place, left, reached, here, collects⟩
  · exact run_eq_ok_iff.mpr (Or.inl ⟨nowhere, rfl⟩)
  · have nonempty : path ≠ "" := by
      rintro rfl
      cases (Files.reach_eq_ok_iff.mp reached).1
    have collects : Collects (Scan.mk path extensions exclude).whole files left place path
      (files.namesIn place) found := collects
    have start : path = [].foldl Path.join path := rfl
    exact run_eq_ok_iff.mpr
      (Or.inr ⟨place, left, reached, here, collects.exclude named nonempty start nofun fun _ => named.isName⟩)

/-- A tree with one module in a directory that goes by a second name. -/
def linkedDirectory : Files where
  entries := ⟨[⟨["w"], .directory⟩, ⟨["dist", "w"], .directory⟩, ⟨["core", "dist", "w"], .directory⟩,
    ⟨["main.js", "core", "dist", "w"], .file "main();".toUTF8⟩, ⟨["lib", "dist", "w"], .link "core"⟩], by decide⟩
  home := ["w"]

theorem linkedDirectory_hasNames : linkedDirectory.HasNames := by
  refine Files.hasNames_of_entries fun entry member name above same => ?_
  simp only [linkedDirectory, List.mem_cons, List.not_mem_nil, or_false] at member
  rcases member with rfl | rfl | rfl | rfl | rfl <;> cases same <;> decide

/-- The module is found by both names. -/
theorem run_linkedDirectory : (run ⟨"./dist", [".js"], []⟩ linkedDirectory "./dist").result =
    .ok [⟨"./dist/core/main.js", "core/main.js", "main.js", "core"⟩,
        ⟨"./dist/lib/main.js", "lib/main.js", "main.js", "lib"⟩] := by
  have home : linkedDirectory.content? ["w"] = some .directory := rfl
  have dist : linkedDirectory.content? ["dist", "w"] = some .directory := rfl
  have core : linkedDirectory.content? ["core", "dist", "w"] = some .directory := rfl
  have main : linkedDirectory.content? ["main.js", "core", "dist", "w"] = some (.file "main();".toUTF8) := rfl
  have reached : linkedDirectory.reach "./dist" = .ok (["dist", "w"], Files.mostLinks) :=
    Files.reach_eq_ok_iff.mpr ⟨by decide, .moves home nofun (.enters home (by decide) dist nofun .stays)⟩
  have toCore (links : Nat) : linkedDirectory.Arrives links ["dist", "w"] [.name "core"]
      (["core", "dist", "w"], links) :=
    .enters dist (by decide) core nofun .stays
  have toLib (links : Nat) : linkedDirectory.Arrives (links + 1) ["dist", "w"] [.name "lib"]
      (["core", "dist", "w"], links) :=
    .follows dist (by decide) rfl (toCore links)
  have toMain (links : Nat) : linkedDirectory.Arrives links ["core", "dist", "w"] [.name "main.js"]
      (["main.js", "core", "dist", "w"], links) := .enters core (by decide) main nofun .stays
  have inCore (links : Nat) (path : String) (fine : Files.pathError? (Path.join path "main.js") = none) :
      Collects ⟨"./dist", [".js"], []⟩ linkedDirectory links ["core", "dist", "w"] path
        (linkedDirectory.namesIn ["core", "dist", "w"])
        [fileAt ⟨"./dist", [".js"], []⟩ path "main.js"] := by
    have names : linkedDirectory.namesIn ["core", "dist", "w"] = ["main.js"] := by decide
    rw [names]
    exact .file rfl fine (Files.walk_eq_ok_iff.mpr (toMain links)) main nofun .done
  have inDist :
    Collects ⟨"./dist", [".js"], []⟩ linkedDirectory Files.mostLinks ["dist", "w"] "./dist" ["core", "lib"]
      [fileAt ⟨"./dist", [".js"], []⟩ (Path.join "./dist" "core") "main.js",
        fileAt ⟨"./dist", [".js"], []⟩ (Path.join "./dist" "lib") "main.js"] :=
    .directory rfl (by decide) (Files.walk_eq_ok_iff.mpr (toCore _)) core (inCore _ _ (by decide))
      (.directory rfl (by decide) (Files.walk_eq_ok_iff.mpr (toLib _)) core (inCore _ _ (by decide)) .done)
  exact run_eq_ok_iff.mpr (Or.inr ⟨_, _, reached, dist, inDist⟩)

/-- A name across a slash leaves out the file by one of its paths, and it stays by the other. -/
theorem run_exclude_linkedDirectory : linkedDirectory.HasNames ∧
    (run ⟨"./dist", [".js"], []⟩ linkedDirectory "./dist").result =
      .ok [⟨"./dist/core/main.js", "core/main.js", "main.js", "core"⟩,
        ⟨"./dist/lib/main.js", "lib/main.js", "main.js", "lib"⟩] ∧
    (run ⟨"./dist", [".js"], ["e/m"]⟩ linkedDirectory "./dist").result =
      .ok [⟨"./dist/lib/main.js", "lib/main.js", "main.js", "lib"⟩] ∧
    (run ⟨"./dist", [".js"], ["core"]⟩ linkedDirectory "./dist").result =
      .ok [⟨"./dist/lib/main.js", "lib/main.js", "main.js", "lib"⟩] :=
  ⟨linkedDirectory_hasNames, run_linkedDirectory, run_exclude linkedDirectory_hasNames run_linkedDirectory,
    run_exclude linkedDirectory_hasNames run_linkedDirectory⟩

end Scan

end ModuleBundler
