import ModuleBundler.Proofs.Assets.Embedding
import ModuleBundler.Proofs.Assets.Replacement
import ModuleBundler.Proofs.KeyedList
import ModuleBundler.Proofs.Scan

namespace ModuleBundler

open Script

namespace Assets

variable {extensions : List String} {files now : Files} {file : SourceFile} {found : List SourceFile}
  {assets loaded : Assets}
  {name : String}

/-- The first extension that a file ends with is what is taken from its name. -/
theorem nameOf_append (extensions : List String)
    (wanted : (extensions.any fun extension => extension.toList.isSuffixOf file.fileName.toList) = true) :
    ∃ before extension after, extensions = before ++ extension :: after ∧
      (∀ other ∈ before, ¬other.toList <:+ file.fileName.toList) ∧
          nameOf extensions file ++ extension = file.fileName := by
  obtain ⟨extension, first⟩ := Option.isSome_iff_exists.mp (List.find?_isSome.mpr (List.any_eq_true.mp wanted))
  obtain ⟨ends, before, after, listed, others⟩ := List.find?_eq_some_iff_append.mp first
  refine ⟨before, extension, after, listed, fun other member ends => ?_, ?_⟩
  · have isOther := others other member
    rw [List.isSuffixOf_iff_suffix.mpr ends] at isOther
    cases isOther
  · obtain ⟨front, eq⟩ := List.isSuffixOf_iff_suffix.mp ends
    have length := congrArg List.length eq
    rw [List.length_append, String.length_toList, String.length_toList] at length
    apply String.toList_inj.mp
    rw [nameOf, first]
    simp only
    rw [String.toList_append, String.toList_ofList, ← eq, List.take_left' (by omega)]

/-- The text of a file that holds one. -/
def textIn (files : Files) (file : SourceFile) : String := (files.readText file.location).toOption.getD ""

/-- The asset in a file. -/
def assetIn (extensions : List String) (files : Files) (file : SourceFile) : Asset :=
    ⟨nameOf extensions file, textIn files file⟩

/-- Reading puts the assets of the files one after the other, and each file holds a text. -/
theorem read_ends_ok (ends : (read extensions assets found).Ends files (.ok loaded) now) :
    now = files ∧ (∀ file ∈ found, files.readText file.location = .ok (textIn files file)) ∧
      loaded = (found.map (assetIn extensions files)).foldl KeyedList.put assets := by
  induction found generalizing assets with
  | nil =>
    obtain ⟨same, rfl⟩ := Work.pure_ends_iff.mp ends
    exact ⟨rfl, nofun, Except.ok.inj same⟩
  | cons file found ih =>
    rw [read] at ends
    obtain ⟨content, middle, reads, others⟩ := Work.bind_ends_ok_iff.mp ends
    obtain ⟨isText, rfl⟩ := Work.readText_ends_ok_iff.mp reads
    have text : textIn middle file = content := by
      rw [textIn, isText]
      rfl
    have onward : (read extensions (assets.put ⟨nameOf extensions file, content⟩) found).Ends middle
        (.ok loaded) now := by
      dsimp only at others
      split at others
      · exact Work.noted_bind_ends_iff.mp others
      · exact others
    obtain ⟨same, texts, eq⟩ := ih onward
    refine ⟨same, fun other member => ?_, ?_⟩
    · rcases List.mem_cons.mp member with rfl | later
      · rw [text]
        exact isText
      · exact texts other later
    · rw [eq, List.map_cons, List.foldl_cons, assetIn, text]

theorem load_ends_ok {path base : String} (ends : (load path base extensions).Ends files (.ok loaded) now) :
    now = files ∧ ∃ found, (Scan.run ⟨base, extensions, []⟩ files path).result = .ok found ∧
      (∀ file ∈ found, files.readText file.location = .ok (textIn files file)) ∧
      loaded = KeyedList.ofList (found.map (assetIn extensions files)) := by
  rw [load] at ends
  obtain ⟨found, middle, scans, reads⟩ := Work.bind_ends_ok_iff.mp ends
  obtain ⟨result, rfl⟩ := Work.ofAttempt_ends_iff.mp scans
  obtain ⟨same, texts, eq⟩ := read_ends_ok reads
  exact ⟨same, found, result.symm, texts, eq⟩

/-- Of the files with one name, the last one gives the content. -/
theorem get?_assetIn (extensions : List String) (files : Files) (member : file ∈ found) :
    ∃ front last back, found = front ++ last :: back ∧
    nameOf extensions last = nameOf extensions file ∧
      (∀ other ∈ back, nameOf extensions other ≠ nameOf extensions file) ∧
    (KeyedList.ofList (found.map (assetIn extensions files)) : Assets).get? (nameOf extensions file) =
      some ⟨nameOf extensions file, textIn files last⟩ := by
  obtain ⟨last, isLast⟩ :
      ∃ last, (found.reverse.find? fun other => nameOf extensions other = nameOf extensions file) = some last :=
    Option.isSome_iff_exists.mp (List.find?_isSome.mpr ⟨file, List.mem_reverse.mpr member, by simp⟩)
  obtain ⟨named, behind, before, split, others⟩ := List.find?_eq_some_iff_append.mp isLast
  rw [decide_eq_true_eq] at named
  refine ⟨before.reverse, last, behind.reverse, ?_, named, fun other inside => ?_, ?_⟩
  · rw [← List.reverse_reverse found, split]
    simp
  · simpa using others other (List.mem_reverse.mp inside)
  · have search : (fun a : Asset => decide (a.name = nameOf extensions file)) ∘ assetIn extensions files =
        fun other => decide (nameOf extensions other = nameOf extensions file) := rfl
    rw [KeyedList.get?_ofList, ← List.map_reverse, List.find?_map, search, isLast, Option.map_some, assetIn, named]

/-- A module that imports an asset by the name of a file is given the content of the asset. -/
theorem embed_by_fileName {o : Options} {m : Module} {item : Item} {source path content extension : String}
    (parsed : Module.parse? source.toList = some m) (member : item ∈ m.items)
    (asset : assets.get? name = some ⟨name, content⟩)
    (kind : item.kind = .importing [.byDefault (name ++ o.assetSuffix)] path) (relative : ['.', '/'] <+: path.toList)
    (listed : extension ∈ o.assetExtensions) (ends : (name ++ extension).toList <:+ path.toList) (shown : String) :
    ∃ rows last code, (embed o assets shown source).result = .ok (some (String.ofList code)) ∧
      Replaces o assets m rows last code ∧ ∃ row ∈ rows, row.item = item ∧ row.asset = ⟨name, content⟩ := by
  have inside := (KeyedList.get?_eq_some_iff.mp asset).1
  have imports : Imports o item ⟨name, content⟩ := ⟨path, kind, relative, extension, listed, ends⟩
  obtain ⟨rows, last, code, result, replaces⟩ := replaces_embed parsed shown ⟨item, member, _, inside, imports⟩
  exact ⟨rows, last, code, result, replaces, replaces.all item member _ inside imports⟩

/-- When assets are loaded, each file that is found has the asset that is named by the file without the first
extension that it ends with. The assets stand in the order in which their names were found first, with the
contents that were found last, and a module that imports an asset by its name, from a path that ends with the name
of a file, is given its content. -/
theorem loaded_assets_are_imported (o : Options) (path base : String) (files now : Files) (assets : Assets)
    (loads : (load path base o.assetExtensions).Ends files (.ok assets) now) :
    ∃ found, (Scan.run ⟨base, o.assetExtensions, []⟩ files path).result = .ok found ∧
      assets.keys = (found.map (nameOf o.assetExtensions)).eraseDups ∧
      ∀ file ∈ found,
        (∃ before extension after, o.assetExtensions = before ++ extension :: after ∧
          (∀ other ∈ before, ¬other.toList <:+ file.fileName.toList) ∧
          nameOf o.assetExtensions file ++ extension = file.fileName) ∧
        ∃ front last back content, found = front ++ last :: back ∧
          nameOf o.assetExtensions last = nameOf o.assetExtensions file ∧
          (∀ other ∈ back, nameOf o.assetExtensions other ≠ nameOf o.assetExtensions file) ∧
          files.readText last.location = .ok content ∧
          assets.get? (nameOf o.assetExtensions file) = some ⟨nameOf o.assetExtensions file, content⟩ ∧
          ∀ source m item importPath shown, Module.parse? source.toList = some m → item ∈ m.items →
            item.kind = .importing [.byDefault (nameOf o.assetExtensions file ++ o.assetSuffix)] importPath →
            ['.', '/'] <+: importPath.toList → file.fileName.toList <:+ importPath.toList →
              ∃ rows last code, (embed o assets shown source).result = .ok (some (String.ofList code)) ∧
                Replaces o assets m rows last code ∧
                ∃ row ∈ rows, row.item = item ∧ row.asset = ⟨nameOf o.assetExtensions file, content⟩ := by
  obtain ⟨_, found, result, texts, rfl⟩ := load_ends_ok loads
  refine ⟨found, result, by rw [KeyedList.keys_ofList, List.map_map]; rfl, fun file member => ?_⟩
  obtain ⟨before, extension, after, listed, others, named⟩ :=
    nameOf_append o.assetExtensions (Scan.isWanted_of_run result member)
  have inList : extension ∈ o.assetExtensions := listed ▸ List.mem_append_right _ List.mem_cons_self
  obtain ⟨front, last, back, split, same, different, asset⟩ := get?_assetIn o.assetExtensions files member
  refine ⟨⟨before, extension, after, listed, others, named⟩, front, last, back, textIn files last,
    split, same, different,
    texts last (by simp [split]), asset, fun source m item importPath shown parsed inside kind relative ends => ?_⟩
  exact embed_by_fileName parsed inside asset kind relative inList (named.symm ▸ ends) shown

/-- The module of the tree with one module, loaded as an asset and imported from another directory. -/
theorem loaded_main_is_imported : ∃ assets : Assets,
    (load "./dist" "./dist" [".js"]).Ends .oneModule (.ok assets) .oneModule ∧
    ∃ m, Module.parse? "import mainAsset from './core/main.js';".toList = some m ∧
      ∃ rows last code,
        (embed { assetExtensions := [".js"] } assets "m.js" "import mainAsset from './core/main.js';").result =
          .ok (some (String.ofList code)) ∧
        Replaces { assetExtensions := [".js"] } assets m rows last code ∧ ∃ row ∈ rows,
            row.asset = ⟨"main", "main();"⟩ := by
  have isText : Files.oneModule.readText "./dist/core/main.js" = .ok "main();" :=
    Files.readText_of_leads Files.oneModule_isPlain.noLinks (by decide) (by decide)
      (show Files.oneModule.placeOf "./dist/core/main.js" = ["main.js", "core", "dist", "w"] by decide) rfl
  have loads : (load "./dist" "./dist" [".js"]).Ends .oneModule
      (.ok ⟨[⟨"main", "main();"⟩], by simp⟩) .oneModule := by
    refine Work.bind_ends_ok_iff.mpr ⟨_, _, Work.ofAttempt_ends_iff.mpr ⟨Scan.run_oneModule.symm, rfl⟩,
      read_cons_ends isText ?_⟩
    have named : nameOf [".js"] ⟨"./dist/core/main.js", "core/main.js", "main.js", "core"⟩ = "main" := by decide
    rw [named]
    exact Work.pure_ends_iff.mpr ⟨rfl, rfl⟩
  have read : (Module.parse? "import mainAsset from './core/main.js';".toList).map (fun m => m.items.map Item.kind) =
      some [.importing [.byDefault "mainAsset"] "./core/main.js"] := by
    decide +kernel
  obtain ⟨m, parsed, eq⟩ := Option.map_eq_some_iff.mp read
  obtain ⟨item, only, kind⟩ := List.map_eq_singleton_iff.mp eq
  obtain ⟨found, result, _, each⟩ :=
    loaded_assets_are_imported { assetExtensions := [".js"] } "./dist" "./dist" .oneModule .oneModule _ loads
  obtain rfl := Except.ok.inj (Scan.run_oneModule.symm.trans result)
  obtain ⟨_, _, _, _, content, _, _, _, _, asset, embeds⟩ := each _ List.mem_cons_self
  have named : nameOf [".js"] ⟨"./dist/core/main.js", "core/main.js", "main.js", "core"⟩ = "main" := by decide
  simp only [named] at asset embeds
  obtain rfl : "main();" = content := congrArg Asset.content (Option.some.inj asset)
  obtain ⟨rows, last, code, result, replaces, row, member, _, isMain⟩ :=
    embeds "import mainAsset from './core/main.js';" m item
    "./core/main.js" "m.js" parsed (by simp [only]) kind (by decide) (by decide)
  exact ⟨_, loads, m, parsed, rows, last, code, result, replaces, row, member, isMain⟩

end Assets

end ModuleBundler
