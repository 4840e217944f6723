import ModuleBundler.Project
import ModuleBundler.Proofs.Assets.Embedding
import ModuleBundler.Proofs.Files.Removal
import ModuleBundler.Proofs.Files.Writes
import ModuleBundler.Proofs.Scan
import ModuleBundler.Proofs.Work

namespace ModuleBundler.Project

/-- What a build knows when the assets have been embedded. -/
structure Embedding where
  assets : Assets
  modules : List SourceFile
  /-- Number of modules that have changed. -/
  changed : Nat

/-- What a build knows when the bundle is assembled. -/
structure Assembly where
  embedding : Embedding
  graph : Graph
  /-- The modules in the order in which they go into the bundle. -/
  ordered : List ModuleNode
  bundle : Bundle

/-- The first phase of a build: embeds the assets in the modules. -/
def embedAssets (o : Options) : Work Embedding := do
  Noted.note (.scanning o.root)
  let assets ← Assets.load o.srcPath o.outPath o.assetExtensions
  let modules ← scanModules o
  let changed ← Assets.embedIn o assets modules
  return ⟨assets, modules, changed⟩

/-- The phases of a build before the bundle is written. -/
def assemble (o : Options) : Work Assembly := do
  let embedding ← embedAssets o
  Noted.note (.assetsEmbedded embedding.assets.size embedding.changed)
  let g ← graphOf embedding.modules o.entryKey
  Noted.note (.modulesFound g.size)
  let ordered ← (g.ordered : Noted _)
  Noted.note .orderResolved
  let bundle ← addEntry o (← (Bundle.addModules {} ordered : Attempt _))
  return ⟨embedding, g, ordered, bundle⟩

def Assembly.report (a : Assembly) (o : Options) : Report :=
  ⟨a.embedding.assets.size, a.embedding.changed, a.graph.size, a.bundle.fragments.length, o.outputPath⟩

theorem bundle_eq (o : Options) : bundle o = do
    let a ← assemble o
    writeBundle o.outputPath a.bundle
    cleanup o.outPath o.cleanDirs
    Noted.note (.combined a.ordered.length o.outputPath)
    return a.report o := by
  simp only [bundle, assemble, embedAssets, bind_assoc, pure_bind]
  rfl

open Work (onlyReads_pure onlyReads_lift onlyReads_noted onlyReads_look onlyReads_ofAttempt onlyReads_readText)

theorem onlyReads_loadAssets (path base : String) (extensions : List String) :
    (Assets.load path base extensions).OnlyReads := by
  refine (onlyReads_ofAttempt _).bind fun files => ?_
  generalize KeyedList.empty = assets
  induction files generalizing assets with
  | nil => exact onlyReads_pure _
  | cons file files ih =>
    refine onlyReads_readText.bind fun content => ?_
    dsimp only
    split
    · exact (onlyReads_noted _).bind fun _ => ih _
    · exact ih _

theorem onlyReads_scanModules (o : Options) : (scanModules o).OnlyReads := onlyReads_ofAttempt _

theorem onlyReads_graphOf (files : List SourceFile) (entry : String) : (graphOf files entry).OnlyReads := by
  rw [graphOf]
  generalize Graph.empty = g
  induction files generalizing g with
  | nil => exact onlyReads_pure _
  | cons file files ih =>
    rw [addTo]
    split
    · exact ih _
    · refine (onlyReads_readText.bind fun _ => onlyReads_lift _).bind fun node => ?_
      exact (onlyReads_noted _).bind fun _ => ih _

theorem onlyReads_addEntry (o : Options) (bundle : Bundle) : (addEntry o bundle).OnlyReads := by
  refine (onlyReads_look _).bind fun isFile => ?_
  split
  · exact onlyReads_readText.bind fun _ => onlyReads_lift _
  · exact (onlyReads_noted _).bind fun _ => onlyReads_pure _

variable {o : Options} {files now : Files} {report : Report} {e : Embedding} {a : Assembly}

/-- The modules that a scan finds. -/
def modulesIn (o : Options) (files : Files) : List SourceFile := ((scanModules o).run files).result.toOption.getD []

theorem modulesIn_eq {modules : List SourceFile} (scanned : (scanModules o).Ends files (.ok modules) now) :
    modulesIn o files = modules := by
  rw [modulesIn, scanned.1]
  rfl

theorem modulesIn_nodup (plain : files.IsPlain) (o : Options) :
    ((modulesIn o files).map fun file => files.placeOf file.location).Nodup := by
  rw [modulesIn]
  cases found : ((scanModules o).run files).result with
  | ok modules =>
    rcases Scan.finds_of_run plain.noLinks found with rfl | ⟨_, finds⟩
    · exact List.nodup_nil
    · exact finds.nodup plain rfl (files.namesIn_nodup _)
  | error => exact List.nodup_nil

/-- What the items of a module depend on, if a source can be read as a module. -/
def dependencies? (source : String) : Option (List String) :=
  (Script.Module.parse? source.toList).map fun m => m.items.filterMap fun item => item.kind.source?

theorem importsOf_eq_ok_iff {name source : String} {imports : List String} :
    (importsOf name source).result = .ok imports ↔ dependencies? source = some imports := by
  rw [importsOf, Attempt.bind_eq_ok_iff, parseModule, dependencies?]
  cases Script.Module.parse? source.toList with
  | none => exact iff_of_false (by rintro ⟨m, failed, _⟩; cases failed) (by simp)
  | some m =>
    rw [Option.map_some, Option.some.injEq]
    constructor
    · rintro ⟨_, parsed, sources⟩
      cases parsed
      exact Except.ok.inj sources
    · rintro rfl
      exact ⟨m, rfl, rfl⟩

/-- Whether a node is that of the module in a file. -/
structure IsNode (files : Files) (file : SourceFile) (node : ModuleNode) : Prop where
  file_eq : node.file = file
  isText : files.readText file.location = .ok node.content
  isImports : dependencies? node.content = some node.imports

theorem IsNode.unique {file : SourceFile} {node other : ModuleNode} (first : IsNode files file node)
    (second : IsNode now file other)
    (same : files.readText file.location = now.readText file.location) : node = other := by
  obtain ⟨_, imports, content⟩ := node
  obtain ⟨_, imports', content'⟩ := other
  obtain ⟨rfl, isText, isImports⟩ := first
  obtain ⟨rfl, isText', isImports'⟩ := second
  rw [same] at isText
  cases isText.symm.trans isText'
  cases isImports.symm.trans isImports'
  rfl

/-- The nodes of modules are those of their files, in the same order. -/
theorem map_file_eq {modules : List SourceFile} {nodes : List ModuleNode}
    (areNodes : List.Forall₂ (IsNode files) modules nodes) :
    nodes.map ModuleNode.file = modules := by
  induction areNodes with
  | nil => rfl
  | cons isNode _ ih => rw [List.map_cons, isNode.file_eq, ih]

theorem loadNode_ends_ok_iff {file : SourceFile} {node : ModuleNode} :
    (loadNode file).Ends files (.ok node) now ↔ IsNode files file node ∧ now = files := by
  simp only [loadNode, Work.bind_ends_ok_iff, Work.readText_ends_ok_iff, Work.lift_ends_iff, ModuleNode.ofSource,
    eq_comm (a := Except.ok node), Attempt.bind_eq_ok_iff]
  constructor
  · rintro ⟨source, _, ⟨isText, rfl⟩, ⟨imports, isImports, made⟩, rfl⟩
    cases made
    exact ⟨⟨rfl, isText, importsOf_eq_ok_iff.mp isImports⟩, rfl⟩
  · obtain ⟨_, imports, content⟩ := node
    rintro ⟨⟨rfl, isText, isImports⟩, rfl⟩
    exact ⟨content, now, ⟨isText, rfl⟩, ⟨imports, importsOf_eq_ok_iff.mpr isImports, rfl⟩, rfl⟩

theorem addTo_ends_ok_iff {modules : List SourceFile} {entry : String} {start g : Graph} :
    (addTo start entry modules).Ends files (.ok g) now ↔ now = files ∧ ∃ nodes,
      List.Forall₂ (IsNode files) (modules.filter (·.relativePath ≠ entry)) nodes ∧
          g = nodes.foldl Graph.insert start := by
  induction modules generalizing start with
  | nil =>
    rw [addTo, Work.pure_ends_iff, Except.ok.injEq, List.filter_nil]
    constructor
    · rintro ⟨rfl, rfl⟩
      exact ⟨rfl, [], .nil, rfl⟩
    · rintro ⟨rfl, nodes, isNode, rfl⟩
      cases isNode
      exact ⟨rfl, rfl⟩
  | cons file modules ih =>
    rw [addTo]
    by_cases isEntry : file.relativePath = entry
    · rw [if_pos isEntry, ih, List.filter_cons_of_neg (by simpa using isEntry)]
    · rw [if_neg isEntry, List.filter_cons_of_pos (by simpa using isEntry), Work.bind_ends_ok_iff]
      constructor
      · rintro ⟨node, middle, loaded, rest⟩
        obtain ⟨isNode, rfl⟩ := loadNode_ends_ok_iff.mp loaded
        obtain ⟨rfl, nodes, areNodes, rfl⟩ := ih.mp (Work.noted_bind_ends_iff.mp rest)
        exact ⟨rfl, node :: nodes, .cons isNode areNodes, rfl⟩
      · rintro ⟨rfl, nodes, areNodes, rfl⟩
        cases areNodes with
        | @cons _ node _ nodes isNode areNodes =>
          exact ⟨node, now, loadNode_ends_ok_iff.mpr ⟨isNode, rfl⟩,
            Work.noted_bind_ends_iff.mpr (ih.mpr ⟨rfl, nodes, areNodes, rfl⟩)⟩

/-- A graph is made of the nodes of all modules but the entry module, one after the other. -/
theorem graphOf_ends_ok_iff {modules : List SourceFile} {entry : String} {g : Graph} :
    (graphOf modules entry).Ends files (.ok g) now ↔ now = files ∧ ∃ nodes,
      List.Forall₂ (IsNode files) (modules.filter (·.relativePath ≠ entry)) nodes ∧ g = ⟨.ofList nodes⟩ := by
  have folded (nodes : List ModuleNode) : nodes.foldl Graph.insert .empty = ⟨.ofList nodes⟩ :=
    List.foldl_hom Graph.mk fun _ _ => rfl
  simp only [graphOf, addTo_ends_ok_iff, folded]

/-- The entry module is added if its path leads to a file. -/
theorem addEntry_ends_ok_iff {b bundle : Bundle} : (addEntry o b).Ends files (.ok bundle) now ↔ now = files ∧
    if files.isFile o.entryPath then
      ∃ source text, files.readText o.entryPath = .ok source ∧ (plainText o.entryKey source).result = .ok text ∧
        bundle = { b with entry := some text }
    else bundle = b := by
  rw [addEntry, Work.look_bind_ends_iff]
  split
  · rw [Work.bind_ends_ok_iff]
    constructor
    · rintro ⟨source, _, reads, made⟩
      obtain ⟨isText, rfl⟩ := Work.readText_ends_ok_iff.mp reads
      rw [Work.lift_ends_iff, eq_comm, Bundle.setEntry, Attempt.bind_eq_ok_iff] at made
      obtain ⟨⟨text, isPlain, made⟩, rfl⟩ := made
      cases made
      exact ⟨rfl, source, text, isText, isPlain, rfl⟩
    · rintro ⟨rfl, source, text, isText, isPlain, rfl⟩
      refine ⟨source, now, Work.readText_ends_ok_iff.mpr ⟨isText, rfl⟩, ?_⟩
      rw [Work.lift_ends_iff, eq_comm, Bundle.setEntry, Attempt.bind_eq_ok_iff]
      exact ⟨⟨text, isPlain, rfl⟩, rfl⟩
  · rw [Work.noted_bind_ends_iff, Work.pure_ends_iff, Except.ok.injEq, and_comm]

/-- Behind embedding, no phase before the bundle is written changes a file. -/
theorem embedAssets_of_assemble {result : Except Failure Assembly} (ends : (assemble o).Ends files result now) :
    ∃ first, (embedAssets o).Ends files first now := by
  refine Work.OnlyReads.ends_first (fun e => ?_) ends
  refine (onlyReads_noted _).bind fun _ => (onlyReads_graphOf _ _).bind fun g => ?_
  refine (onlyReads_noted _).bind fun _ => (onlyReads_noted _).bind fun ordered =>
    (onlyReads_noted _).bind fun _ => ?_
  exact (onlyReads_lift _).bind fun b => (onlyReads_addEntry o b).bind fun _ => onlyReads_pure _

theorem embedAssets_ends_ok_iff : (embedAssets o).Ends files (.ok e) now ↔
    (Assets.load o.srcPath o.outPath o.assetExtensions).Ends files (.ok e.assets) files ∧
      (scanModules o).Ends files (.ok e.modules) files ∧
      (Assets.embedIn o e.assets e.modules).Ends files (.ok e.changed) now := by
  rw [embedAssets, Work.noted_bind_ends_iff]
  simp only [Work.bind_ends_ok_iff, Work.pure_ends_iff, Except.ok.injEq]
  constructor
  · rintro ⟨assets, _, loaded, modules, _, scanned, changed, _, embedded, rfl, rfl⟩
    cases (onlyReads_loadAssets _ _ _).files_eq loaded
    cases (onlyReads_scanModules o).files_eq scanned
    exact ⟨loaded, scanned, embedded⟩
  · rintro ⟨loaded, scanned, embedded⟩
    exact ⟨_, _, loaded, _, _, scanned, _, _, embedded, rfl, rfl⟩

theorem assemble_ends_ok_iff : (assemble o).Ends files (.ok a) now ↔
    (embedAssets o).Ends files (.ok a.embedding) now ∧
    (graphOf a.embedding.modules o.entryKey).Ends now (.ok a.graph) now ∧
      a.ordered = a.graph.ordered.value ∧
      ∃ b, (Bundle.addModules {} a.ordered).result = .ok b ∧ (addEntry o b).Ends now (.ok a.bundle) now := by
  simp only [assemble, Work.bind_ends_ok_iff, Work.noted_ends_iff, Work.lift_ends_iff,
    Work.pure_ends_iff, Except.ok.injEq]
  constructor
  · rintro ⟨e, embedded, isEmbedding, _, _, ⟨-, rfl⟩, g, middle, isGraph, _, _, ⟨-, rfl⟩, _, _,
      ⟨rfl, rfl⟩, _, _, ⟨-, rfl⟩, b, _, ⟨isBundle, rfl⟩, bundle, final, isEntry, rfl, rfl⟩
    cases (onlyReads_graphOf _ _).files_eq isGraph
    cases (onlyReads_addEntry o b).files_eq isEntry
    exact ⟨isEmbedding, isGraph, rfl, b, isBundle.symm, isEntry⟩
  · obtain ⟨e, g, ordered, bundle⟩ := a
    rintro ⟨isEmbedding, isGraph, inOrder, b, isBundle, isEntry⟩
    dsimp only at inOrder
    subst inOrder
    exact ⟨e, now, isEmbedding, (), now, ⟨trivial, rfl⟩, g, now, isGraph, (), now, ⟨trivial, rfl⟩, _, now, ⟨rfl, rfl⟩,
      (), now, ⟨trivial, rfl⟩, b, now, ⟨isBundle.symm, rfl⟩, bundle, now, isEntry, rfl, rfl⟩

theorem bundle_ends_ok_iff : (bundle o).Ends files (.ok report) now ↔ ∃ a assembled written,
    (assemble o).Ends files (.ok a) assembled ∧ assembled.write o.outputPath a.bundle.text.toUTF8 = .ok written ∧
      (cleanup o.outPath o.cleanDirs).Ends written (.ok ()) now ∧ report = a.report o := by
  simp only [bundle_eq, writeBundle, Work.bind_ends_ok_iff, Work.writeText_ends_ok_iff,
    Work.noted_ends_iff, Work.pure_ends_iff, Except.ok.injEq]
  constructor
  · rintro ⟨a, assembled, isAssembly, _, written, isWritten, _, cleaned, isClean, _, _, ⟨_, rfl⟩, rfl, rfl⟩
    exact ⟨a, assembled, written, isAssembly, isWritten, isClean, rfl⟩
  · rintro ⟨a, assembled, written, isAssembly, isWritten, isClean, rfl⟩
    exact ⟨a, assembled, isAssembly, (), written, isWritten, (), now, isClean, (), now, ⟨trivial, rfl⟩, rfl, rfl⟩

def main : SourceFile := ⟨"./dist/core/main.js", "core/main.js", "main.js", "core"⟩

theorem readText_main : Files.oneModule.readText main.location = .ok "main();" := by
  have place : Files.oneModule.placeOf main.location = ["main.js", "core", "dist", "w"] := by decide
  exact Files.readText_of_leads Files.oneModule_isPlain.noLinks (by decide) (by decide) place rfl

theorem embedAssets_oneModule (entry : String) (cleanDirs : List String) :
    (embedAssets { entry := entry, cleanDirs := cleanDirs }).Ends .oneModule
    (.ok ⟨.empty, [main], 0⟩) .oneModule := by
  have outPath : ({ entry := entry, cleanDirs := cleanDirs } : Options).outPath = "./dist" :=
    (by decide : Path.join "." "dist" = "./dist")
  have srcPath : ({ entry := entry, cleanDirs := cleanDirs } : Options).srcPath = "./src" :=
    (by decide : Path.join "." "src" = "./src")
  refine embedAssets_ends_ok_iff.mpr ⟨?_, ?_, ?_⟩
  · have nothing : (Scan.run ⟨"./dist", [".wgsl"], []⟩ .oneModule "./src").result = .ok [] :=
      Scan.run_of_not_leads Files.oneModule_isPlain.noLinks (by decide)
    rw [srcPath, outPath]
    exact Work.bind_ends_ok_iff.mpr ⟨[], _, Work.ofAttempt_ends_iff.mpr ⟨nothing.symm, rfl⟩,
      Work.pure_ends_iff.mpr ⟨rfl, rfl⟩⟩
  · rw [scanModules, outPath]
    exact Work.ofAttempt_ends_iff.mpr ⟨Scan.run_oneModule.symm, rfl⟩
  · exact Assets.embedIn_cons_kept ⟨_, readText_main, rfl⟩ (Work.pure_ends_iff.mpr ⟨rfl, rfl⟩)

end ModuleBundler.Project
