import ModuleBundler.Proofs.Project.Shown
import ModuleBundler.Proofs.Scan.Distinct

namespace ModuleBundler.Project

variable {files now later : Files} {entry : String} {modules : List SourceFile} {g : Graph}

/-- Modules with different paths are all nodes of their graph, in their order. -/
theorem nodes_of_graphOf (distinct : (modules.map SourceFile.relativePath).Nodup)
    (built : (graphOf modules entry).Ends now (.ok g) later) :
    List.Forall₂ (IsNode now) (modules.filter (·.relativePath ≠ entry)) g.nodes.toList := by
  obtain ⟨_, nodes, areNodes, rfl⟩ := graphOf_ends_ok_iff.mp built
  have keys : nodes.map ModuleNode.key = (modules.filter (·.relativePath ≠ entry)).map SourceFile.relativePath := by
    rw [← map_file_eq areNodes, List.map_map]
    rfl
  have distinctKeys : (nodes.map ModuleNode.key).Nodup := keys ▸ distinct.sublist (List.filter_sublist.map _)
  rw [KeyedList.toList_ofList distinctKeys]
  exact areNodes

/-- The files that a scan finds have different paths, in whatever directory and by paths from wherever. So the
graph of the modules of a project has one node for each module but the entry module, in the order of the scan,
with the text and the imports of its own file. -/
theorem scanned_are_nodes (named : files.HasNames) :
    (∀ (scan : Scan) (path : String) (found : List SourceFile), (scan.run files path).result = .ok found →
      (found.map SourceFile.relativePath).Nodup) ∧
    ∀ (o : Options) (modules : List SourceFile) (left : Files), (scanModules o).Ends files (.ok modules) left →
      ∀ (entry : String) (g : Graph) (now later : Files), (graphOf modules entry).Ends now (.ok g) later →
        List.Forall₂ (IsNode now) (modules.filter (·.relativePath ≠ entry)) g.nodes.toList ∧
        g.keys = (modules.filter (·.relativePath ≠ entry)).map SourceFile.relativePath := by
  refine ⟨fun scan path found => Scan.relativePath_nodup_of_run named,
    fun o modules left scanned entry g now later built => ?_⟩
  have result := (Work.ofAttempt_ends_iff.mp scanned).1.symm
  have areNodes := nodes_of_graphOf (Scan.relativePath_nodup_of_run named result) built
  refine ⟨areNodes, ?_⟩
  rw [← map_file_eq areNodes, List.map_map]
  rfl

/-- Two modules, the first of which imports something. -/
theorem scanned_are_nodes_twoModules : twoModules.HasNames ∧
    (scanModules {}).Ends twoModules (.ok [appFile, basicFile]) twoModules ∧
    (graphOf [appFile, basicFile] ({} : Options).entryKey).Ends twoModules (.ok graphShown) twoModules ∧
    ([appFile, basicFile].map SourceFile.relativePath).Nodup ∧
    List.Forall₂ (IsNode twoModules) [appFile, basicFile] graphShown.nodes.toList ∧
    graphShown.keys = ["app.js", "basic.js"] ∧
    graphShown.nodes.toList.map ModuleNode.imports = [["./basic.wgsl"], []] := by
  have named : twoModules.HasNames := (nameClash_isPlain _).isName
  have scanned : (scanModules {}).Ends twoModules (.ok [appFile, basicFile]) twoModules := scan_nameClash _
  obtain ⟨distinct, nodes⟩ := scanned_are_nodes named
  have all : [appFile, basicFile].filter (·.relativePath ≠ ({} : Options).entryKey) = [appFile, basicFile] := by
    decide
  obtain ⟨areNodes, keys⟩ := nodes _ _ _ scanned _ _ _ _ graphOf_graphShown
  rw [all] at areNodes keys
  exact ⟨named, scanned, graphOf_graphShown, distinct _ _ _ (Work.ofAttempt_ends_iff.mp scanned).1.symm, areNodes,
    keys, by decide⟩

end ModuleBundler.Project
