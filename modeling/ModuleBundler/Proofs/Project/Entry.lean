import Mathlib.Data.Set.List
import ModuleBundler.Proofs.Bundle.Assembly
import ModuleBundler.Proofs.Graph.Order
import ModuleBundler.Proofs.Project.Changes
import ModuleBundler.Proofs.Project.Output

namespace ModuleBundler

/-- Whether the path of the entry module goes on from the directory of the modules by names alone. -/
def Options.EntryBelow (o : Options) : Prop :=
    ∃ rest, Path.steps o.entryPath = Path.steps o.outPath ++ rest ∧ .up ∉ rest

namespace Project

variable {o : Options} {files now : Files} {file other : SourceFile} {e : Embedding} {a : Assembly} {g : Graph}

/-- How a module stands below the directory of the modules. -/
structure StandsBy (o : Options) (files : Files) (file : SourceFile) (names : List String) : Prop where
  some : names ≠ []
  areNames : ∀ name ∈ names, Path.IsName name
  steps_eq : Path.steps file.location = Path.steps o.outPath ++ names.map .name
  relativePath_eq : file.relativePath = "/".intercalate names
  placeOf_eq : files.placeOf file.location = names.reverse ++ files.placeOf o.outPath

theorem standsBy_of_mem (plain : files.IsPlain) (member : file ∈ modulesIn o files) :
    o.outPath ≠ "" ∧ ∃ names, StandsBy o files file names := by
  rw [modulesIn] at member
  cases found : ((scanModules o).run files).result with
  | error =>
    rw [found] at member
    cases member
  | ok modules =>
    rw [found] at member
    rcases Scan.finds_of_run plain.noLinks found with rfl | ⟨⟨_, reached⟩, finds⟩
    · cases member
    · have nonempty : o.outPath ≠ "" := by
        intro empty
        have fine := (Files.reach_eq_ok_iff.mp reached).1
        rw [empty] at fine
        cases fine
      obtain ⟨directories, name, rfl, areNames, placed, _, _⟩ := finds.stands plain rfl member
      exact ⟨nonempty, directories ++ [name], by simp, areNames, Path.steps_join_foldl nonempty areNames,
        Scan.relativePath_fileAt nonempty areNames, by simpa using placed⟩

/-- The path of a module tells it from all others. -/
theorem eq_of_relativePath (plain : files.IsPlain) (member : file ∈ modulesIn o files)
    (member' : other ∈ modulesIn o files)
    (same : file.relativePath = other.relativePath) : file = other := by
  obtain ⟨nonempty, names, stands⟩ := standsBy_of_mem plain member
  obtain ⟨_, names', stands'⟩ := standsBy_of_mem plain member'
  have relative := (Path.relativeTo_eq_iff nonempty stands.areNames).mpr stands.steps_eq
  rw [← stands.relativePath_eq, same, stands'.relativePath_eq, Path.relativeTo_eq_iff nonempty stands'.areNames,
    stands.steps_eq, List.append_cancel_left_eq] at relative
  have names_eq : names = names' := List.map_injective_iff.mpr (fun _ _ => Path.Step.name.inj) relative
  refine List.inj_on_of_nodup_map (modulesIn_nodup plain o) member member' ?_
  rw [stands.placeOf_eq, stands'.placeOf_eq, names_eq]

/-- A module that the path of the entry module leads to is the entry module by its own path exactly if that path
goes on from the directory of the modules. -/
theorem relativePath_eq_entryKey_iff (plain : files.IsPlain) (member : file ∈ modulesIn o files)
    (same : files.placeOf o.entryPath = files.placeOf file.location) :
        file.relativePath = o.entryKey ↔ o.EntryBelow := by
  obtain ⟨nonempty, names, stands⟩ := standsBy_of_mem plain member
  rw [stands.relativePath_eq, eq_comm, Options.entryKey, Path.relativeTo_eq_iff nonempty stands.areNames]
  constructor
  · intro steps_eq
    exact ⟨_, steps_eq, by simp⟩
  · rintro ⟨rest, steps_eq, noUp⟩
    have named (step : Path.Step) (member : step ∈ rest) : step ∈ Set.range Path.Step.name := by
      rcases Path.mem_steps_append nonempty steps_eq member with rfl | ⟨text, _, rfl⟩
      · exact absurd member noUp
      · exact ⟨text, rfl⟩
    -- the rest is one of names, and the place that it leads to tells which
    have listed : rest ∈ Set.range (List.map Path.Step.name) := by
      rw [Set.range_list_map]
      exact named
    obtain ⟨texts, rfl⟩ := listed
    rw [steps_eq]
    rw [stands.placeOf_eq, files.placeOf_eq_steps o.entryPath, steps_eq, Path.follow_append,
      ← files.placeOf_eq_steps, Path.follow_names, List.append_cancel_right_eq, List.reverse_inj] at same
    rw [same]

theorem file_mem_of_graph {modules : List SourceFile} {entry : String} {node : ModuleNode}
    (built : (graphOf modules entry).Ends files (.ok g) now) (member : node ∈ g.nodes.toList) :
        node.file ∈ modules ∧ node.key ≠ entry := by
  obtain ⟨_, nodes, areNodes, rfl⟩ := graphOf_ends_ok_iff.mp built
  have inModules : node.file ∈ nodes.map ModuleNode.file := List.mem_map_of_mem (KeyedList.mem_of_mem_ofList member)
  rw [map_file_eq areNodes, List.mem_filter, decide_eq_true_eq] at inModules
  exact inModules

/-- The graph has no node of a module exactly if the module is the entry module by its path. -/
theorem no_node_iff (plain : files.IsPlain) (built : (graphOf (modulesIn o files) o.entryKey).Ends now (.ok g) now)
    (member : file ∈ modulesIn o files) : (∀ node ∈ g.nodes.toList, node.file ≠ file) ↔
        file.relativePath = o.entryKey := by
  constructor
  · intro noNode
    by_contra others
    obtain ⟨_, nodes, areNodes, rfl⟩ := graphOf_ends_ok_iff.mp built
    obtain ⟨node, inNodes, rfl⟩ : ∃ node ∈ nodes, node.file = file := by
      rw [← List.mem_map, map_file_eq areNodes]
      exact List.mem_filter.mpr ⟨member, by simpa using others⟩
    -- the node that stands under its path is one of a module with this path, and there is only one
    obtain ⟨last, found⟩ : ∃ last, Graph.get? ⟨.ofList nodes⟩ node.key = some last :=
      KeyedList.exists_get?_ofList inNodes
    obtain ⟨inGraph, sameKey⟩ := KeyedList.get?_eq_some_iff.mp found
    exact noNode last inGraph (eq_of_relativePath plain (file_mem_of_graph built inGraph).1 member sameKey)
  · rintro isEntry node inGraph rfl
    exact (file_mem_of_graph built inGraph).2 isEntry

theorem addModules_eq_ok {bundle made : Bundle} {nodes : List ModuleNode}
    (result : (bundle.addModules nodes).result = .ok made) :
    made.entry = bundle.entry ∧ ∀ fragment ∈ made.fragments, fragment ∈ bundle.fragments ∨
        fragment.path ∈ nodes.map ModuleNode.key := by
  obtain ⟨_, rfl⟩ := Bundle.result_addModules_ok_iff.mp result
  refine ⟨rfl, fun fragment member => (List.mem_append.mp member).imp_right fun new => ?_⟩
  obtain ⟨node, inNodes, added⟩ := List.mem_filterMap.mp new
  exact List.mem_map.mpr ⟨node, inNodes, (fragment?_eq_some_iff.mp added).1.symm⟩

/-- Whether the code of a module is in the bundle once, and this as the entry module. -/
structure OnceAtEnd (o : Options) (files : Files) (a : Assembly) (file : SourceFile) : Prop where
  noNode : ∀ node ∈ a.graph.nodes.toList, node.file ≠ file
  noFragment : ∀ fragment ∈ a.bundle.fragments, fragment.path ≠ file.relativePath
  isEntry : ∃ source text, files.bytesAt? (files.placeOf file.location) = some source.toUTF8 ∧
    (plainText o.entryKey source).result = .ok text ∧ a.bundle.entry = some text

/-- For a module that the path of the entry module leads to, the graph has no node exactly if this path goes on
from the directory of the modules, and its code is in the bundle once, at the end, exactly if besides the path
leads to a file. -/
theorem entry_once_iff (plain : files.IsPlain) (embedded : (embedAssets o).Ends files (.ok e) now)
    (member : file ∈ modulesIn o files)
    (same : files.placeOf o.entryPath = files.placeOf file.location) :
    (∀ g, (graphOf (modulesIn o files) o.entryKey).Ends now (.ok g) now →
      ((∀ node ∈ g.nodes.toList, node.file ≠ file) ↔ o.EntryBelow)) ∧
    ∀ a, (assemble o).Ends files (.ok a) now →
        (OnceAtEnd o now a file ↔ o.EntryBelow ∧ files.isFile o.entryPath) := by
  obtain ⟨front, assets, _, _, rewrites, _⟩ := rewrites_of_embedAssets plain embedded
  have outline := rewrites.sameOutline plain.noLinks
  have node_iff (g : Graph) (built : (graphOf (modulesIn o files) o.entryKey).Ends now (.ok g) now) :
      (∀ node ∈ g.nodes.toList, node.file ≠ file) ↔ o.EntryBelow := by
    rw [no_node_iff plain built member, relativePath_eq_entryKey_iff plain member same]
  refine ⟨node_iff, fun a assembled => ?_⟩
  obtain ⟨isEmbedding, built, inOrder, b, added, isEntry⟩ := assemble_ends_ok_iff.mp assembled
  rw [← modulesIn_eq (embedAssets_ends_ok_iff.mp isEmbedding).2.1] at built
  obtain ⟨noEntry, fragments⟩ := addModules_eq_ok added
  obtain ⟨_, isEntry⟩ := addEntry_ends_ok_iff.mp isEntry
  rw [← outline.isFile_eq]
  constructor
  · rintro ⟨noNode, _, source, text, _, _, isLast⟩
    refine ⟨(node_iff a.graph built).mp noNode, ?_⟩
    by_contra noFile
    rw [if_neg noFile] at isEntry
    rw [isEntry, noEntry] at isLast
    cases isLast
  · rintro ⟨below, isFile⟩
    rw [if_pos isFile] at isEntry
    obtain ⟨source, text, reads, made, bundle_eq⟩ := isEntry
    refine ⟨(node_iff a.graph built).mpr below, fun fragment inBundle samePath => ?_, source, text, ?_,
      made, by rw [bundle_eq]⟩
    · rw [bundle_eq] at inBundle
      rcases fragments fragment inBundle with none | inNodes
      · cases none
      · rw [inOrder, Graph.map_key_ordered, Graph.mem_order_iff, samePath] at inNodes
        obtain ⟨node, inGraph, sameKey⟩ := List.mem_map.mp inNodes
        exact (file_mem_of_graph built inGraph).2
          (sameKey.trans ((relativePath_eq_entryKey_iff plain member same).mpr below))
    · have found := Files.readText_eq_ok_iff.mp reads
      rw [Files.bytesAt?_eq_some_iff, outline.placeOf_eq, ← same, ← outline.placeOf_eq]
      exact ((Files.look_iff_leads (outline.noLinks plain.noLinks)).mp found).2.2

theorem mem_modulesIn_oneModule (entry : String) (cleanDirs : List String) :
    main ∈ modulesIn { entry := entry, cleanDirs := cleanDirs } .oneModule := by
  rw [modulesIn_eq (embedAssets_ends_ok_iff.mp (embedAssets_oneModule entry cleanDirs)).2.1]
  exact List.mem_singleton_self main

/-- An entry module by its path from the directory of the modules. -/
theorem entry_once_by_path : ∃ a, (assemble (mainEntry [])).Ends .oneModule (.ok a) .oneModule ∧
    OnceAtEnd (mainEntry []) .oneModule a main := by
  have same : Files.oneModule.placeOf (mainEntry []).entryPath = Files.oneModule.placeOf main.location := by
    rw [entryPath_mainEntry]
  obtain ⟨_, once_iff⟩ := entry_once_iff Files.oneModule_isPlain (embedAssets_oneModule _ _)
    (mem_modulesIn_oneModule _ _) same
  have below : (mainEntry []).EntryBelow := ⟨[.name "core", .name "main.js"], by decide, by decide⟩
  have isFile : Files.oneModule.isFile (mainEntry []).entryPath := by
    rw [entryPath_mainEntry]
    exact Files.isFile_iff.mpr ⟨_, Files.readText_eq_ok_iff.mp readText_main⟩
  exact ⟨_, assemble_mainEntry [], (once_iff _ (assemble_mainEntry [])).mpr ⟨below, isFile⟩⟩

/-- The entry module by a path that leaves the directory of the modules and comes back. -/
def mainAround : Options := { entry := "../dist/core/main.js", cleanDirs := [] }

/-- The node of the module of the tree with one module. -/
def mainNode : ModuleNode := ⟨main, [], "main();"⟩

theorem entry_twice_around : main ∈ modulesIn mainAround .oneModule ∧
    Files.oneModule.placeOf mainAround.entryPath = Files.oneModule.placeOf main.location ∧
    ∃ a, (assemble mainAround).Ends .oneModule (.ok a) .oneModule ∧
      (∃ node ∈ a.graph.nodes.toList, node.file = main) ∧
      a.bundle = { fragments := [⟨"core/main.js", "main();"⟩], entry := some "main();" } := by
  have place : Files.oneModule.placeOf mainAround.entryPath = ["main.js", "core", "dist", "w"] := by decide
  have place' : Files.oneModule.placeOf main.location = ["main.js", "core", "dist", "w"] := by decide
  refine ⟨mem_modulesIn_oneModule _ _, place.trans place'.symm,
    ⟨⟨.empty, [main], 0⟩, ⟨.ofList [mainNode]⟩, [mainNode], _⟩, ?_, ⟨mainNode, List.mem_singleton_self _, rfl⟩, rfl⟩
  have reads : Files.oneModule.look mainAround.entryPath = .ok (.file "main();".toUTF8) :=
    (Files.look_iff_leads Files.oneModule_isPlain.noLinks).mpr ⟨by decide, by decide, place ▸ rfl⟩
  refine assemble_ends_ok_iff.mpr ⟨embedAssets_oneModule _ _, ?_, ?_, ?_⟩
  · have others : [main].filter (·.relativePath ≠ mainAround.entryKey) = [main] := by decide
    have isNode : IsNode .oneModule main mainNode := ⟨rfl, readText_main, by decide⟩
    refine graphOf_ends_ok_iff.mpr ⟨rfl, [mainNode], ?_, rfl⟩
    rw [others]
    exact .cons isNode .nil
  · have order : (⟨.ofList [mainNode]⟩ : Graph).order = ["core/main.js"] :=
      List.perm_singleton.mp (Graph.order_perm_keys _)
    show [mainNode] = (⟨.ofList [mainNode]⟩ : Graph).order.filterMap _
    rw [order]
    rfl
  · refine ⟨{ fragments := [⟨"core/main.js", "main();"⟩] }, Attempt.result_eq_ok (by decide +kernel), ?_⟩
    refine addEntry_ends_ok_iff.mpr ⟨rfl, ?_⟩
    rw [if_pos (Files.isFile_iff.mpr ⟨_, reads⟩)]
    exact ⟨_, _, Files.readText_eq_ok_iff.mpr reads, Attempt.result_eq_ok (by decide +kernel), rfl⟩

end Project

end ModuleBundler
