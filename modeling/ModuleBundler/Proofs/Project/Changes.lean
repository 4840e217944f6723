import ModuleBundler.Proofs.Assets.Embedding
import ModuleBundler.Proofs.Project.Cleanup
import ModuleBundler.Proofs.Project.Phases
import ModuleBundler.Proofs.Scan

namespace ModuleBundler.Project

variable {o : Options} {files now : Files} {result : Except Failure Report} {directory : String}
  {names : List String} {place : Location}

/-- Whether embedding the assets of the project in the module in a file makes this text of it. -/
def EmbedsTo (o : Options) (files : Files) (file : SourceFile) (text : String) : Prop :=
  ∃ assets, (Assets.load o.srcPath o.outPath o.assetExtensions).Ends files (.ok assets) files ∧
    Assets.Embeds o assets files file (some text)

/-- Embedding deals with the first of the modules, and if it succeeds with all of them. -/
theorem rewrites_of_embedAssets {result : Except Failure Embedding} (plain : files.IsPlain)
    (ends : (embedAssets o).Ends files result now) :
    ∃ front assets, front <+: modulesIn o files ∧ ((∃ e, result = .ok e) → front = modulesIn o files) ∧
      Assets.Rewrites o assets files front now ∧
        ∀ file ∈ front, ∀ text, EmbedsTo o files file text ↔ Assets.Embeds o assets files file (some text) := by
  rw [embedAssets, Work.noted_bind_ends_iff] at ends
  have nothing : Assets.Rewrites o .empty files [] files := Assets.rewrites_nil o .empty files
  rcases Work.bind_ends_iff.mp ends with ⟨assets, middle, loaded, onward⟩ | ⟨failure, loaded, rfl⟩
  · cases (onlyReads_loadAssets _ _ _).files_eq loaded
    have embedsTo_iff (file : SourceFile) (text : String) :
        EmbedsTo o files file text ↔ Assets.Embeds o assets files file (some text) := by
      constructor
      · rintro ⟨assets', loaded', embeds⟩
        cases (loaded.unique loaded').1
        exact embeds
      · exact fun embeds => ⟨assets, loaded, embeds⟩
    rcases Work.bind_ends_iff.mp onward with ⟨modules, middle, scanned, last⟩ | ⟨failure, scanned, rfl⟩
    · cases (onlyReads_scanModules o).files_eq scanned
      have isModules := modulesIn_eq scanned
      obtain ⟨counted, embedded, rfl⟩ := Work.bind_pure_ends_iff.mp last
      have distinct : (([] ++ modules : List SourceFile).map fun file => files.placeOf file.location).Nodup := by
        rw [List.nil_append, ← isModules]
        exact modulesIn_nodup plain o
      rw [isModules]
      obtain ⟨done, isPrefix, rewrites, all⟩ :=
        Assets.rewrites_of_embedIn plain.noLinks distinct (Assets.rewrites_nil o assets files) embedded
      refine ⟨done, assets, isPrefix, ?_, rewrites, fun file _ => embedsTo_iff file⟩
      rintro ⟨e, succeeds⟩
      cases counted with
      | ok count => exact all count rfl
      | error => cases succeeds
    -- what fails before a module is written has rewritten none
    · cases (onlyReads_scanModules o).files_eq scanned
      exact ⟨[], .empty, List.nil_prefix, by simp, nothing, by simp⟩
  · cases (onlyReads_loadAssets _ _ _).files_eq loaded
    exact ⟨[], .empty, List.nil_prefix, by simp, nothing, by simp⟩

/-- However the phases before the bundle is written end, they have rewritten the first of the modules that assets
are embedded in, and all of these modules if embedding has not failed. -/
theorem assemble_changes {ended : Except Failure Assembly} (plain : files.IsPlain)
    (ends : (assemble o).Ends files ended now) :
    Files.SameOutline now files ∧
      ∃ front, front <+: modulesIn o files ∧ ((∃ e middle, (embedAssets o).Ends files (.ok e) middle) →
        front = modulesIn o files) ∧
        (∀ file ∈ front, ∀ text, EmbedsTo o files file text →
          now.bytesAt? (files.placeOf file.location) = some text.toUTF8) ∧
        ∀ place, (∀ file ∈ front, ∀ text, EmbedsTo o files file text → files.placeOf file.location ≠ place) →
          now.content? place = files.content? place := by
  obtain ⟨first, embedded⟩ := embedAssets_of_assemble ends
  obtain ⟨front, assets, isPrefix, all, rewrites, embeds_iff⟩ := rewrites_of_embedAssets plain embedded
  refine ⟨rewrites.sameOutline plain.noLinks, front, isPrefix, ?_, ?_, ?_⟩
  · rintro ⟨e, middle, succeeds⟩
    exact all ⟨e, (embedded.unique succeeds).1⟩
  · intro file member text embeds
    exact Files.bytesAt?_eq_some_iff.mpr (rewrites.changed file member text ((embeds_iff file member text).mp embeds))
  · intro place away
    exact rewrites.kept place fun file member text embeds =>
      away file member text ((embeds_iff file member text).mpr embeds)

/-- A place holds what it has held before the bundle is written, or what embedding makes of the
module that stands there. -/
theorem bytesAt?_assemble {ended : Except Failure Assembly} (plain : files.IsPlain)
    (ends : (assemble o).Ends files ended now)
    (place : Location) : now.bytesAt? place = files.bytesAt? place ∨ ∃ file ∈ modulesIn o files, ∃ text,
      files.placeOf file.location = place ∧ EmbedsTo o files file text ∧ now.bytesAt? place = some text.toUTF8 := by
  obtain ⟨_, front, isPrefix, _, changed, kept⟩ := assemble_changes plain ends
  by_cases rewritten : ∃ file ∈ front, ∃ text, EmbedsTo o files file text ∧ files.placeOf file.location = place
  · obtain ⟨file, member, text, embeds, rfl⟩ := rewritten
    exact Or.inr ⟨file, isPrefix.subset member, text, rfl, embeds, changed file member text embeds⟩
  · push Not at rewritten
    exact Or.inl (Files.bytesAt?_congr (kept place rewritten))

/-- What is written to a path stands at its place, and all else is as before. -/
theorem content?_write {path : String} {bytes : ByteArray} (noLinks : files.NoLinks)
    (written : files.write path bytes = .ok now) :
    now.NoLinks ∧ now.home = files.home ∧ ∀ place, place ≠ files.placeOf path →
        now.content? place = files.content? place := by
  obtain ⟨name, above, left, rfl, free, reached⟩ := Files.write_spec written
  have noLinks' := noLinks.put name above bytes
  refine ⟨noLinks', rfl, fun place other => ?_⟩
  have placed := congrArg Prod.fst (Files.reach_eq_placeOf noLinks' reached)
  rw [Files.content?_put, if_neg]
  exact fun same => other (same.trans placed)

/-- A build fails before the bundle is written, or when it is written, or cleans up. -/
theorem bundle_ends_cases (ends : (bundle o).Ends files result now) :
    (∃ failure, (assemble o).Ends files (.error failure) now ∧ result = .error failure) ∨
      ∃ a assembled, (assemble o).Ends files (.ok a) assembled ∧
        (now = assembled ∨ ∃ written cleaned, assembled.write o.outputPath a.bundle.text.toUTF8 = .ok written ∧
          (cleanup o.outPath o.cleanDirs).Ends written cleaned now) := by
  rw [bundle_eq] at ends
  rcases Work.bind_ends_iff.mp ends with ⟨a, assembled, isAssembly, onward⟩ | ⟨failure, failed, rfl⟩
  · refine Or.inr ⟨a, assembled, isAssembly, ?_⟩
    rcases Work.bind_ends_iff.mp onward with ⟨_, written, writes, rest⟩ | ⟨failure, writes, rfl⟩
    · refine Or.inr ⟨written, ?_⟩
      rcases Work.bind_ends_iff.mp rest with ⟨_, cleaned, cleans, last⟩ | ⟨failure, cleans, rfl⟩
      · rw [Work.noted_bind_ends_iff, Work.pure_ends_iff] at last
        obtain ⟨_, rfl⟩ := last
        exact ⟨_, Work.writeText_ends_ok_iff.mp writes, cleans⟩
      · exact ⟨_, Work.writeText_ends_ok_iff.mp writes, cleans⟩
    · exact Or.inl (Work.writeText_ends_error writes).1
  · exact Or.inl ⟨failure, failed, rfl⟩

/-- A build that fails before the bundle is written has rewritten the modules that assets are embedded in, up to
the one at which it fails; any other build changes these modules, the bundle and what is inside of the directories
that are cleaned up. -/
theorem bundle_changes (plain : files.IsPlain) (ends : (bundle o).Ends files result now) :
    (∀ place, place ≠ files.placeOf o.outputPath →
      (∀ directory ∈ o.cleanDirs, ¬Files.isInside place (files.placeOf (Path.join o.outPath directory))) →
      now.bytesAt? place = files.bytesAt? place ∨ ∃ file ∈ modulesIn o files, ∃ text,
        files.placeOf file.location = place ∧ EmbedsTo o files file text ∧ now.bytesAt? place = some text.toUTF8) ∧
    ∀ failure left, (assemble o).Ends files (.error failure) left →
      (result = .error failure ∧ now = left) ∧ Files.SameOutline now files ∧
      ∃ front, front <+: modulesIn o files ∧ ((∃ e middle, (embedAssets o).Ends files (.ok e) middle) →
        front = modulesIn o files) ∧
        (∀ file ∈ front, ∀ text, EmbedsTo o files file text →
          now.bytesAt? (files.placeOf file.location) = some text.toUTF8) ∧
        ∀ place, (∀ file ∈ front, ∀ text, EmbedsTo o files file text → files.placeOf file.location ≠ place) →
          now.content? place = files.content? place := by
  constructor
  · intro place notOutput notCleaned
    rcases bundle_ends_cases ends with ⟨failure, failed, _⟩ | ⟨a, assembled, isAssembly, last⟩
    · exact bytesAt?_assemble plain failed place
    · have changes := bytesAt?_assemble plain isAssembly place
      obtain ⟨same, _⟩ := assemble_changes plain isAssembly
      rcases last with rfl | ⟨written, cleaned, writes, cleans⟩
      · exact changes
      · obtain ⟨noLinks, home, kept⟩ := content?_write (same.noLinks plain.noLinks) writes
        have still : now.bytesAt? place = assembled.bytesAt? place := by
          rw [bytesAt?_cleanup noLinks cleans fun directory member => ?_]
          · exact Files.bytesAt?_congr (kept place (by rwa [same.placeOf_eq]))
          · rw [Files.placeOf, home, same.home]
            exact notCleaned directory member
        rwa [still]
  · intro failure left failed
    have whole : result = .error failure ∧ now = left := by
      rcases bundle_ends_cases ends with ⟨failure', failed', rfl⟩ | ⟨a, assembled, isAssembly, _⟩
      · obtain ⟨same, rfl⟩ := failed.unique failed'
        cases same
        exact ⟨rfl, rfl⟩
      · cases (failed.unique isAssembly).1
    refine ⟨whole, ?_⟩
    rw [whole.2]
    exact assemble_changes plain failed

/-- A tree with two modules and an asset. The asset has the name of the second module, which holds some bytes, and
is imported by the first one. -/
def nameClash (bytes : ByteArray) : Files where
  entries := ⟨[⟨["w"], .directory⟩, ⟨["dist", "w"], .directory⟩, ⟨["src", "w"], .directory⟩,
    ⟨["app.js", "dist", "w"], .file "import basicAsset from './basic.wgsl';".toUTF8⟩,
      ⟨["basic.js", "dist", "w"], .file bytes⟩, ⟨["basic.wgsl", "src", "w"], .file "x".toUTF8⟩],
    (by decide : [["w"], ["dist", "w"], ["src", "w"], ["app.js", "dist", "w"], ["basic.js", "dist", "w"],
      ["basic.wgsl", "src", "w"]].Nodup)⟩
  home := ["w"]

/-- The same tree when the asset has been embedded. -/
def nameClashEmbedded (bytes : ByteArray) : Files :=
  (nameClash bytes).put ["app.js", "dist", "w"] (.file "const basicAsset = \"x\";".toUTF8)

def appFile : SourceFile := ⟨"./dist/app.js", "app.js", "app.js", "."⟩

def basicFile : SourceFile := ⟨"./dist/basic.js", "basic.js", "basic.js", "."⟩

def basicAssets : Assets := .ofList [⟨"basic", "x"⟩]

variable (bytes : ByteArray)

theorem nameClash_isPlain : (nameClash bytes).IsPlain := by
  refine Files.isPlain_of_entries fun entry member => ?_
  simp only [nameClash, List.mem_cons, List.not_mem_nil, or_false] at member
  rcases member with rfl | rfl | rfl | rfl | rfl | rfl <;> refine ⟨by simp, fun name above same => ?_⟩
    <;> cases same <;> decide

theorem nameClash_noLinks : (nameClash bytes).NoLinks := (nameClash_isPlain bytes).noLinks

theorem nameClashEmbedded_noLinks : (nameClashEmbedded bytes).NoLinks := (nameClash_noLinks bytes).put _ _ _

theorem scan_nameClash : (scanModules {}).Ends (nameClash bytes) (.ok [appFile, basicFile]) (nameClash bytes) := by
  have app : (nameClash bytes).content? ["app.js", "dist", "w"] =
    some (.file "import basicAsset from './basic.wgsl';".toUTF8) := rfl
  have basic : (nameClash bytes).content? ["basic.js", "dist", "w"] = some (.file bytes) := rfl
  have second : Scan.Finds ⟨"./dist", [".js"], []⟩
      (nameClash bytes) ["dist", "w"] "./dist" ["basic.js"] [basicFile] :=
    .file (by decide) (by decide) rfl basic .done
  have finds : Scan.Finds ⟨"./dist", [".js"], []⟩ (nameClash bytes) ["dist", "w"] "./dist" ["app.js", "basic.js"]
      [appFile, basicFile] := .file (by decide) (by decide) rfl app second
  have result : (Scan.run ⟨"./dist", [".js"], []⟩ (nameClash bytes) "./dist").result = .ok [appFile, basicFile] :=
    Scan.run_of_finds (nameClash_noLinks bytes) (by decide) rfl rfl finds
  have outPath : ({} : Options).outPath = "./dist" := by decide
  rw [scanModules, outPath]
  exact Work.ofAttempt_ends_iff.mpr ⟨result.symm, rfl⟩

theorem load_nameClash :
    (Assets.load ({} : Options).srcPath ({} : Options).outPath ({} : Options).assetExtensions).Ends (nameClash bytes)
    (.ok basicAssets) (nameClash bytes) := by
  have basic : (nameClash bytes).content? ["basic.wgsl", "src", "w"] = some (.file "x".toUTF8) := rfl
  have finds : Scan.Finds ⟨"./dist", [".wgsl"], []⟩ (nameClash bytes) ["src", "w"] "./src" ["basic.wgsl"]
      [⟨"./src/basic.wgsl", "../src/basic.wgsl", "basic.wgsl", "../src"⟩] :=
    .file (by decide) (by decide) rfl basic .done
  have result : (Scan.run ⟨"./dist", [".wgsl"], []⟩ (nameClash bytes) "./src").result =
      .ok [⟨"./src/basic.wgsl", "../src/basic.wgsl", "basic.wgsl", "../src"⟩] :=
    Scan.run_of_finds (nameClash_noLinks bytes) (by decide) rfl rfl finds
  have outPath : ({} : Options).outPath = "./dist" := by decide
  have srcPath : ({} : Options).srcPath = "./src" := by decide
  have isText : (nameClash bytes).readText "./src/basic.wgsl" = .ok "x" :=
    Files.readText_of_leads (nameClash_noLinks bytes) (by decide) rfl rfl basic
  rw [srcPath, outPath]
  refine Work.bind_ends_ok_iff.mpr ⟨_, _, Work.ofAttempt_ends_iff.mpr ⟨result.symm, rfl⟩,
    Assets.read_cons_ends isText ?_⟩
  have name : Assets.nameOf ({} : Options).assetExtensions
    ⟨"./src/basic.wgsl", "../src/basic.wgsl", "basic.wgsl", "../src"⟩ =
      "basic" := by decide
  rw [name]
  exact Work.pure_ends_iff.mpr ⟨rfl, rfl⟩

theorem readText_appFile : (nameClash bytes).readText appFile.location =
    .ok "import basicAsset from './basic.wgsl';" :=
  Files.readText_of_leads (nameClash_noLinks bytes) (by decide) rfl rfl rfl

/-- The first module is embedded in, whatever the second one holds. -/
theorem embedAssets_nameClash {files : Files} {result : Except Failure Nat}
    (others : (Assets.embedIn {} basicAssets [basicFile]).Ends (nameClashEmbedded bytes) result files) :
    (embedAssets {}).Ends (nameClash bytes) (result.map fun count =>
        ⟨basicAssets, [appFile, basicFile], count + 1⟩) files := by
  have embeds : Assets.Embeds {} basicAssets (nameClash bytes) appFile (some "const basicAsset = \"x\";") :=
    ⟨_, readText_appFile bytes, Attempt.result_eq_ok (by decide +kernel)⟩
  have place : (nameClash bytes).placeOf appFile.location = ["app.js", "dist", "w"] := rfl
  have last : (Path.allSteps appFile.location).getLast? = some (.name "app.js") := by decide
  have written := Files.write_of_leads (nameClash_noLinks bytes) (by decide) (by decide) last (by decide)
    rfl rfl (by rw [place]; nofun) "const basicAsset = \"x\";".toUTF8
  rw [place] at written
  have embedded := Assets.embedIn_cons_changed embeds written others
  rw [embedAssets, Work.noted_bind_ends_iff]
  refine Work.bind_ends_iff.mpr (Or.inl ⟨_, _, load_nameClash bytes, ?_⟩)
  refine Work.bind_ends_iff.mpr (Or.inl ⟨_, _, scan_nameClash bytes, ?_⟩)
  refine Work.bind_pure_ends_iff.mpr ⟨_, embedded, ?_⟩
  cases result <;> rfl

theorem assemble_unreadable : (assemble {}).Ends (nameClash ⟨#[255]⟩)
    (.error (.file .readModule "./dist/basic.js" .notText))
    (nameClashEmbedded ⟨#[255]⟩) := by
  have here : (nameClashEmbedded ⟨#[255]⟩).look basicFile.location = .ok (.file ⟨#[255]⟩) :=
    (Files.look_iff_leads (nameClashEmbedded_noLinks _)).mpr ⟨by decide, by decide, rfl⟩
  have noText : String.fromUTF8? ⟨#[255]⟩ = none := by decide
  have failed : (nameClashEmbedded ⟨#[255]⟩).readText basicFile.location = .error .notText := by
    rw [Files.readText, here]
    simp only [noText]
  exact (embedAssets_nameClash _ (Work.readText_ends_error failed).bind_error).bind_error

/-- The build fails at the second module, when the first one has been rewritten. -/
theorem bundle_changes_unreadable : ∃ failure,
    (bundle {}).Ends (nameClash ⟨#[255]⟩) (.error failure) (nameClashEmbedded ⟨#[255]⟩) ∧
    Files.SameOutline (nameClashEmbedded ⟨#[255]⟩) (nameClash ⟨#[255]⟩) ∧
    ∃ front, front <+: modulesIn {} (nameClash ⟨#[255]⟩) ∧ appFile ∈ front ∧
      ∀ file ∈ front, ∀ text, EmbedsTo {} (nameClash ⟨#[255]⟩) file text →
        (nameClashEmbedded ⟨#[255]⟩).bytesAt? ((nameClash ⟨#[255]⟩).placeOf file.location) = some text.toUTF8 := by
  have fails : (bundle {}).Ends (nameClash ⟨#[255]⟩) (.error (.file .readModule "./dist/basic.js" .notText))
      (nameClashEmbedded ⟨#[255]⟩) := by
    rw [bundle_eq]
    exact assemble_unreadable.bind_error
  obtain ⟨_, outline, front, isPrefix, _, changed, kept⟩ :=
    (bundle_changes (nameClash_isPlain _) fails).2 _ _ assemble_unreadable
  refine ⟨_, fails, outline, front, isPrefix, ?_, changed⟩
  by_contra absent
  have same : "const basicAsset = \"x\";".toUTF8 = "import basicAsset from './basic.wgsl';".toUTF8 := by
    refine Content.file.inj (Option.some.inj (kept ["app.js", "dist", "w"] fun file member text _ place => ?_))
    have inModules := isPrefix.subset member
    rw [modulesIn_eq (scan_nameClash _), List.mem_pair] at inModules
    rcases inModules with rfl | rfl
    · exact absent member
    · exact absurd place (by decide)
  exact absurd (congrArg ByteArray.size same) (by decide)

end ModuleBundler.Project
