import ModuleBundler.Proofs.Graph.Descent
import ModuleBundler.Proofs.Project.Changes

/-!
The order that is shown and the order of the bundle.

The order that is shown is that of the modules as they are. The order of the bundle is that of the modules with
their assets embedded, which import less. The modules are the same, but an import of an asset may have led to a
module by its looks (`Graph.isMatch`), so the orders agree only if this makes no difference where the next module
is looked for (`shown_order_iff`).
-/

namespace ModuleBundler.Project

variable {o : Options} {files now left : Files} {g : Graph} {a : Assembly} {modules : List SourceFile}
  {nodes others : List ModuleNode}

theorem loadGraph_ends_ok_iff : (loadGraph o).Ends files (.ok g) left ↔
    ∃ modules, (scanModules o).Ends files (.ok modules) files ∧
        (graphOf modules o.entryKey).Ends files (.ok g) left := by
  rw [loadGraph, Work.bind_ends_ok_iff]
  constructor
  · rintro ⟨modules, middle, scanned, built⟩
    cases (onlyReads_scanModules o).files_eq scanned
    exact ⟨modules, scanned, built⟩
  · rintro ⟨modules, scanned, built⟩
    exact ⟨modules, files, scanned, built⟩

/-- What the nodes of a module have in common before and after embedding: all, if its text has not changed. -/
structure SameModule (files now : Files) (before after : ModuleNode) : Prop where
  file_eq : before.file = after.file
  node_eq : files.readText after.file.location = now.readText after.file.location → before = after

theorem sameModules (areNodes : List.Forall₂ (IsNode files) modules nodes)
    (areOthers : List.Forall₂ (IsNode now) modules others) :
    List.Forall₂ (fun after before => SameModule files now before after) others nodes := by
  induction areNodes generalizing others with
  | nil =>
    cases areOthers
    exact .nil
  | cons isNode _ ih =>
    cases areOthers with
    | cons isOther areOthers =>
      refine .cons ⟨isNode.file_eq.trans isOther.file_eq.symm, fun same => isNode.unique isOther ?_⟩ (ih areOthers)
      rwa [isOther.file_eq] at same

/-- The order that is shown and the order of the bundle hold the same modules, with the same imports where
embedding has not changed the text of the module. They agree exactly if each module of the bundle is where, in the
graph that is shown, the way ends that goes from the first module which does not stand before it, and so they do
if embedding leaves all edges as they are. -/
theorem shown_order_iff (shown : (loadGraph o).Ends files (.ok g) left)
    (assembled : (assemble o).Ends files (.ok a) now) :
    a.graph.keys = g.keys ∧
    (∀ key after, a.graph.get? key = some after →
      ∃ before, g.get? key = some before ∧ SameModule files now before after) ∧
    (g.ordered.value.map ModuleNode.key = a.ordered.map ModuleNode.key ↔
      ∀ front key back, a.ordered.map ModuleNode.key = front ++ key :: back →
        ∃ first, g.keys.find? (Traversal.mk front ∅).isNew = some first ∧ g.Descends ⟨front, ∅⟩ first key) ∧
    ((∀ key, g.edges key = a.graph.edges key) →
        g.ordered.value.map ModuleNode.key = a.ordered.map ModuleNode.key) := by
  obtain ⟨modules, scanned, built⟩ := loadGraph_ends_ok_iff.mp shown
  obtain ⟨embedded, built', inOrder, _⟩ := assemble_ends_ok_iff.mp assembled
  cases (scanned.unique (embedAssets_ends_ok_iff.mp embedded).2.1).1
  obtain ⟨_, nodes, areNodes, rfl⟩ := graphOf_ends_ok_iff.mp built
  obtain ⟨_, others, areOthers, graph_eq⟩ := graphOf_ends_ok_iff.mp built'
  have related := sameModules areNodes areOthers
  have sameKey (after before : ModuleNode) (same : SameModule files now before after) : after.key = before.key :=
    congrArg SourceFile.relativePath same.file_eq.symm
  have keys : a.graph.keys = Graph.keys ⟨.ofList nodes⟩ := by
    rw [graph_eq]
    refine KeyedList.keys_foldl_put_congr rfl ?_
    have sameFiles := (map_file_eq areOthers).trans (map_file_eq areNodes).symm
    have sameKeys := congrArg (List.map SourceFile.relativePath) sameFiles
    rwa [List.map_map, List.map_map] at sameKeys
  rw [inOrder, Graph.map_key_ordered, Graph.map_key_ordered]
  refine ⟨keys, fun key after found => ?_, Graph.order_eq_iff (keys ▸ a.graph.order_perm_keys),
    Graph.order_congr keys.symm⟩
  rw [graph_eq] at found
  exact KeyedList.get?_ofList_of_forall₂ sameKey related found

/-- The tree with two modules and an asset, where the second module can be read. -/
def twoModules : Files := nameClash "b;".toUTF8

def twoModulesEmbedded : Files := nameClashEmbedded "b;".toUTF8

theorem twoModules_noLinks : twoModules.NoLinks := nameClash_noLinks _

theorem twoModulesEmbedded_noLinks : twoModulesEmbedded.NoLinks := nameClashEmbedded_noLinks _

theorem graphOf_twoModules {files : Files} {app : ModuleNode} (isApp : IsNode files appFile app)
    (isText : files.readText basicFile.location = .ok "b;") :
    (graphOf [appFile, basicFile] ({} : Options).entryKey).Ends files
    (.ok ⟨.ofList [app, ⟨basicFile, [], "b;"⟩]⟩) files := by
  have others : [appFile, basicFile].filter (·.relativePath ≠ ({} : Options).entryKey) = [appFile, basicFile] := by
    decide
  refine graphOf_ends_ok_iff.mpr ⟨rfl, _, ?_, rfl⟩
  rw [others]
  exact .cons isApp (.cons ⟨rfl, isText, by decide⟩ .nil)

theorem readText_basicFile : twoModules.readText basicFile.location = .ok "b;" :=
  Files.readText_of_leads twoModules_noLinks (by decide) (by decide) rfl rfl

theorem readText_basicFile_embedded : twoModulesEmbedded.readText basicFile.location = .ok "b;" :=
  Files.readText_of_leads twoModulesEmbedded_noLinks (by decide) (by decide) rfl rfl

def graphShown : Graph :=
    ⟨.ofList [⟨appFile, ["./basic.wgsl"], "import basicAsset from './basic.wgsl';"⟩, ⟨basicFile, [], "b;"⟩]⟩

/-- The graph of the modules with the asset embedded. -/
def graphBuilt : Graph := ⟨.ofList [⟨appFile, [], "const basicAsset = \"x\";"⟩, ⟨basicFile, [], "b;"⟩]⟩

theorem graphOf_graphShown :
    (graphOf [appFile, basicFile] ({} : Options).entryKey).Ends twoModules (.ok graphShown) twoModules :=
  graphOf_twoModules ⟨rfl, readText_appFile _, by decide⟩ readText_basicFile

theorem loadGraph_twoModules : (loadGraph {}).Ends twoModules (.ok graphShown) twoModules :=
  loadGraph_ends_ok_iff.mpr ⟨_, scan_nameClash _, graphOf_graphShown⟩

theorem graphOf_twoModulesEmbedded :
    (graphOf [appFile, basicFile] ({} : Options).entryKey).Ends twoModulesEmbedded
    (.ok graphBuilt) twoModulesEmbedded := by
  have isText : twoModulesEmbedded.readText appFile.location = .ok "const basicAsset = \"x\";" :=
    Files.readText_of_leads twoModulesEmbedded_noLinks (by decide) (by decide) rfl rfl
  exact graphOf_twoModules ⟨rfl, isText, by decide⟩ readText_basicFile_embedded

theorem order_graphShown : graphShown.order = ["basic.js", "app.js"] := by
  have next : (graphShown.edges "app.js").find? (Traversal.start.enter "app.js").isNew = some "basic.js" := by decide
  exact Graph.order_eq_pair (by decide) ⟨"app.js", by decide, .goesOn next (.stops (by decide))⟩
    ⟨"app.js", by decide, .stops (by decide)⟩

theorem order_graphBuilt : graphBuilt.order = ["app.js", "basic.js"] :=
  Graph.order_eq_pair (by decide) ⟨"app.js", by decide, .stops (by decide)⟩
    ⟨"basic.js", by decide, .stops (by decide)⟩

def twoModulesAssembly : Assembly where
  embedding := ⟨basicAssets, [appFile, basicFile], 1⟩
  graph := graphBuilt
  ordered := graphBuilt.nodes.toList
  bundle := { fragments := [⟨"app.js", "const basicAsset = \"x\";"⟩, ⟨"basic.js", "b;"⟩] }

theorem assemble_twoModules : (assemble {}).Ends twoModules (.ok twoModulesAssembly) twoModulesEmbedded := by
  have kept : Assets.Embeds {} basicAssets twoModulesEmbedded basicFile none :=
    ⟨_, readText_basicFile_embedded, Attempt.result_eq_ok (by decide)⟩
  have embedded := embedAssets_nameClash _ (Assets.embedIn_cons_kept kept (Work.pure_ends_iff.mpr ⟨rfl, rfl⟩))
  refine assemble_ends_ok_iff.mpr ⟨embedded, graphOf_twoModulesEmbedded, ?_, twoModulesAssembly.bundle, ?_, ?_⟩
  · show graphBuilt.nodes.toList = graphBuilt.order.filterMap _
    rw [order_graphBuilt]
    decide
  · exact Attempt.result_eq_ok (by decide +kernel)
  · have noEntry : twoModulesEmbedded.isFile ({} : Options).entryPath = false := by
      rw [Bool.eq_false_iff, ne_eq, Files.isFile_iff]
      rintro ⟨bytes, found⟩
      exact absurd ((Files.look_iff_leads twoModulesEmbedded_noLinks).mp found).2.1 (by decide)
    exact addEntry_ends_ok_iff.mpr ⟨rfl, by rw [noEntry]; rfl⟩

def twoModulesWritten : Files := twoModulesEmbedded.put ["sketch.js", "dist", "w"]
    (.file twoModulesAssembly.bundle.text.toUTF8)

theorem bundle_twoModules : (bundle {}).Ends twoModules (.ok (twoModulesAssembly.report {})) twoModulesWritten := by
  have place : twoModulesEmbedded.placeOf ({} : Options).outputPath = ["sketch.js", "dist", "w"] := by decide
  have last : (Path.allSteps ({} : Options).outputPath).getLast? = some (.name "sketch.js") := by decide
  have written := Files.write_of_leads twoModulesEmbedded_noLinks (by decide) (by decide) last (by decide)
    (by decide) rfl (by rw [place]; nofun) twoModulesAssembly.bundle.text.toUTF8
  rw [place] at written
  refine bundle_ends_ok_iff.mpr ⟨_, _, _, assemble_twoModules, written,
    cleanup_of_not_reaches fun name member => ?_, rfl⟩
  refine not_reaches_of_not_leads (twoModulesEmbedded_noLinks.put _ _ _) ?_
  simp only [List.mem_cons, List.not_mem_nil, or_false] at member
  rcases member with rfl | rfl | rfl | rfl <;> decide

/-- The same modules, but not each of them is where the way ends in the graph that is shown. -/
theorem shown_order_broken : graphBuilt.keys = graphShown.keys ∧
    ¬∀ front key back, twoModulesAssembly.ordered.map ModuleNode.key = front ++ key :: back →
      ∃ first, graphShown.keys.find? (Traversal.mk front ∅).isNew = some first ∧
          graphShown.Descends ⟨front, ∅⟩ first key := by
  obtain ⟨keys, _, same_iff, _⟩ := shown_order_iff loadGraph_twoModules assemble_twoModules
  refine ⟨keys, fun each => ?_⟩
  have same := same_iff.mpr each
  rw [Graph.map_key_ordered, order_graphShown] at same
  exact absurd same (by decide)

/-- The modules stand in one order where it is shown and in another one in the bundle. -/
theorem shown_order_differs : ∃ g a left now report later, (loadGraph {}).Ends twoModules (.ok g) left ∧
    (assemble {}).Ends twoModules (.ok a) now ∧ (bundle {}).Ends twoModules (.ok report) later ∧
    g.ordered.value.map ModuleNode.key = ["basic.js", "app.js"] ∧
        a.ordered.map ModuleNode.key = ["app.js", "basic.js"] := by
  refine ⟨_, _, _, _, _, _, loadGraph_twoModules, assemble_twoModules, bundle_twoModules, ?_, by decide⟩
  rw [Graph.map_key_ordered, order_graphShown]

end ModuleBundler.Project
