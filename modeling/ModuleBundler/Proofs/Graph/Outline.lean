import ModuleBundler.Graph.Outline
import ModuleBundler.Proofs.Graph.Ways

namespace ModuleBundler.Graph

/-- A way, by its edges and the module that it leads to. -/
structure Way where
  edges : List Edge
  last : String

namespace Way

/-- The places of the edges of a way. -/
def indices (way : Way) : List Nat := way.edges.map Edge.index

/-- The modules that a way leads on from. -/
def sources (way : Way) : List String := way.edges.map Edge.source

/-- A way with an edge in front of it. -/
def after (edge : Edge) (way : Way) : Way := { way with edges := edge :: way.edges }

end Way

namespace Outline

/-- The module of an entry. -/
def key : Outline → String
  | opened key _ | repeated key => key

mutual

/-- The ways from an entry to those that stand below it, in the order of the tree. -/
def waysBelow : Outline → List Way
  | opened key imports => branchWays key 0 imports
  | repeated _ => []

/-- The ways from a module to the entries below it and to what stands below these. The first entry is where the
edge with the place `index` leads. -/
def branchWays (source : String) (index : Nat) : List Outline → List Way
  | [] => []
  | entry :: entries =>
    (⟨[], entry.key⟩ :: waysBelow entry).map (.after ⟨source, index⟩) ++ branchWays source (index + 1) entries

end

end Outline

/-- The ways that stand below a module at the top of the tree. -/
def waysFrom (g : Graph) (root : String) : List Way := Outline.branchWays root 0 (g.outline [root] (g.edges root))

/-- The ways of the whole tree. -/
def ways (g : Graph) : List Way := g.roots.flatMap fun root => ⟨[], root⟩ :: g.waysFrom root

/-- What is drawn in front of a module at the end of some edges: a branch for the last one, and for each of the others
what stands under its branch. -/
def margin (g : Graph) (edges : List Edge) : String :=
  String.join (edges.dropLast.map fun edge => if g.isLast edge then "    " else "│   ") ++
    match edges.getLast? with
    | some edge => if g.isLast edge then "└── " else "├── "
    | none => ""

/-- How a module is named in a line: by its key and, if that is wanted and the module is known, by where its file was
found. -/
def shown (g : Graph) (withLocation : Bool) (key : String) : String :=
  match g.nodes.toList.find? fun node => node.file.relativePath = key with
  | some node => if withLocation then key ++ " " ++ node.file.location else key
  | none => key

/-- The line of a way. A module that the way has led on from is marked. -/
def line (g : Graph) (withLocation : Bool) (way : Way) : String :=
  g.margin way.edges ++ g.shown withLocation way.last ++
    if way.last ∈ way.sources then " (∞ -> " ++ way.last ++ ")" else ""

variable {g : Graph} {above keys : List String} {key source root : String} {index : Nat} {way : Way}

theorem exists_edge_of_mem_branchWays {entries : List Outline}
    (member : way ∈ Outline.branchWays source index entries) :
    ∃ place edges, index ≤ place ∧ way.edges = ⟨source, place⟩ :: edges := by
  induction entries generalizing index with
  | nil => cases member
  | cons entry entries ih =>
    rw [Outline.branchWays, List.mem_append] at member
    rcases member with first | rest
    · obtain ⟨inner, _, rfl⟩ := List.mem_map.mp first
      exact ⟨index, inner.edges, le_rfl, rfl⟩
    · obtain ⟨place, edges, later, eq⟩ := ih rest
      exact ⟨place, edges, by omega, eq⟩

theorem edges_ne_nil_of_mem_waysBelow {entry : Outline} (member : way ∈ entry.waysBelow) : way.edges ≠ [] := by
  cases entry with
  | opened key imports =>
    rw [Outline.waysBelow] at member
    obtain ⟨place, edges, _, eq⟩ := exists_edge_of_mem_branchWays member
    rw [eq]
    exact List.cons_ne_nil _ _
  | repeated key =>
    rw [Outline.waysBelow] at member
    cases member

mutual

theorem pairwise_waysBelow : (entry : Outline) → (entry.waysBelow.map Way.indices).Pairwise (· < ·)
  | .opened key imports => by
    rw [Outline.waysBelow]
    exact pairwise_branchWays key 0 imports
  | .repeated _ => by
    rw [Outline.waysBelow]
    exact .nil

/-- The ways stand in the order of the places of their edges, each in front of those that go on from it. -/
theorem pairwise_branchWays (source : String) (index : Nat) :
    (entries : List Outline) → ((Outline.branchWays source index entries).map Way.indices).Pairwise (· < ·)
  | [] => by
    rw [Outline.branchWays]
    exact .nil
  | entry :: entries => by
    rw [Outline.branchWays, List.map_append, List.map_map, List.pairwise_append]
    refine ⟨?_, pairwise_branchWays source (index + 1) entries, fun first isFirst later isLater => ?_⟩
    · have below : ((⟨[], entry.key⟩ :: entry.waysBelow).map Way.indices).Pairwise (· < ·) := by
        refine List.pairwise_cons.mpr ⟨fun indices member => ?_, pairwise_waysBelow entry⟩
        obtain ⟨way, inBelow, rfl⟩ := List.mem_map.mp member
        obtain ⟨edge, edges, eq⟩ := List.exists_cons_of_ne_nil (edges_ne_nil_of_mem_waysBelow inBelow)
        have indices_eq : way.indices = edge.index :: edges.map Edge.index := congrArg (List.map Edge.index) eq
        rw [indices_eq]
        exact List.nil_lt_cons _ _
      have onward := below.map (index :: ·) fun _ _ less => List.cons_lt_cons_iff.mpr (Or.inr ⟨rfl, less⟩)
      rwa [List.map_map] at onward
    · obtain ⟨inner, _, rfl⟩ := List.mem_map.mp isFirst
      obtain ⟨way, member, rfl⟩ := List.mem_map.mp isLater
      obtain ⟨place, edges, behind, eq⟩ := exists_edge_of_mem_branchWays member
      rw [Way.indices, eq]
      exact List.cons_lt_cons_iff.mpr (Or.inl behind)

end

/-- A way from a module that leads on from no module twice, and from none of `above`. -/
structure IsSimple (g : Graph) (above : List String) (key : String) (way : Way) : Prop where
  leads : g.Leads key way.edges way.last
  distinct : way.sources.Nodup
  away : ∀ source ∈ way.sources, source ∉ above

/-- The ways from a module that begin with one of its edges from the place `index` on, and go on simply. -/
def GoesOn (g : Graph) (above : List String) (source : String) (index : Nat) (way : Way) : Prop :=
  ∃ place next inner, index ≤ place ∧ g.target? ⟨source, place⟩ = some next ∧ g.IsSimple above next inner ∧
    way = inner.after ⟨source, place⟩

theorem isSimple_iff : g.IsSimple above key way ↔
    way = ⟨[], key⟩ ∨ key ∉ above ∧ g.GoesOn (key :: above) key 0 way := by
  constructor
  · rintro ⟨leads, distinct, away⟩
    obtain ⟨edges, last⟩ := way
    cases leads with
    | stays => exact Or.inl rfl
    | @goes edge edges next last target rest =>
      obtain ⟨new, distinct⟩ := List.nodup_cons.mp distinct
      refine Or.inr ⟨away _ List.mem_cons_self, edge.index, next, ⟨edges, last⟩, Nat.zero_le _, target,
        ⟨rest, distinct, ?_⟩, rfl⟩
      intro source member isAbove
      rcases List.mem_cons.mp isAbove with rfl | old
      · exact new member
      · exact away source (List.mem_cons_of_mem _ member) old
  · rintro (rfl | ⟨off, place, next, inner, _, target, simple, rfl⟩)
    · exact ⟨.stays, List.nodup_nil, nofun⟩
    · refine ⟨.goes target simple.leads, List.nodup_cons.mpr ⟨fun again => ?_, simple.distinct⟩,
        fun source member => ?_⟩
      · exact simple.away key again List.mem_cons_self
      · rcases List.mem_cons.mp member with rfl | inRest
        · exact off
        · exact fun isAbove => simple.away source inRest (List.mem_cons_of_mem _ isAbove)

theorem not_goesOn (none : (g.edges source).drop index = []) : ¬g.GoesOn above source index way := by
  rintro ⟨place, next, _, behind, target, _⟩
  have within : place < (g.edges source).length := (List.getElem?_eq_some_iff.mp target).1
  have short := List.drop_eq_nil_iff.mp none
  omega

theorem goesOn_iff (front : (g.edges source).drop index = key :: keys) : g.GoesOn above source index way ↔
    (∃ inner, g.IsSimple above key inner ∧ way = inner.after ⟨source, index⟩) ∨
        g.GoesOn above source (index + 1) way := by
  have target : g.target? ⟨source, index⟩ = some key := by
    rw [target?, ← List.head?_drop, front, List.head?_cons]
  constructor
  · rintro ⟨place, next, inner, behind, target', simple, rfl⟩
    rcases Nat.eq_or_lt_of_le behind with rfl | later
    · cases target.symm.trans target'
      exact Or.inl ⟨inner, simple, rfl⟩
    · exact Or.inr ⟨place, next, inner, later, target', simple, rfl⟩
  · rintro (⟨inner, simple, rfl⟩ | ⟨place, next, inner, behind, target', simple, rfl⟩)
    · exact ⟨index, key, inner, le_rfl, target, simple, rfl⟩
    · exact ⟨place, next, inner, by omega, target', simple, rfl⟩

theorem drop_succ (front : (g.edges source).drop index = key :: keys) : (g.edges source).drop (index + 1) = keys := by
  rw [← List.tail_drop, front, List.tail_cons]

/-- Below a module stand the ways that go on simply from it. -/
theorem mem_branchWays_outline (front : (g.edges source).drop index = keys) :
    way ∈ Outline.branchWays source index (g.outline above keys) ↔ g.GoesOn above source index way := by
  -- an entry stands for the simple ways from its module, the entries behind it for those that begin with a later edge
  have step {entry : Outline} {entries : List Outline} {above keys : List String} {key source : String}
    {index : Nat} {way : Way}
      (front : (g.edges source).drop index = key :: keys)
      (first : ∀ inner, inner ∈ (⟨[], entry.key⟩ :: entry.waysBelow : List Way) ↔ g.IsSimple above key inner)
      (later : way ∈ Outline.branchWays source (index + 1) entries ↔ g.GoesOn above source (index + 1) way) :
      way ∈ Outline.branchWays source index (entry :: entries) ↔ g.GoesOn above source index way := by
    rw [Outline.branchWays, List.mem_append, goesOn_iff front, later, List.mem_map]
    simp only [first, eq_comm (a := way)]
  induction above, keys using outline.induct g generalizing source index way with
  | case1 above =>
    rw [outline, Outline.branchWays]
    exact iff_of_false List.not_mem_nil (not_goesOn front)
  | case2 above key keys on ih =>
    rw [outline, dif_pos on]
    refine step front (fun inner => ?_) (ih (drop_succ front))
    rw [Outline.key, Outline.waysBelow, List.mem_singleton, isSimple_iff]
    simp [on]
  | case3 above key keys off known ihBelow ih =>
    rw [outline, dif_neg off, dif_pos known]
    refine step front (fun inner => ?_) (ih (drop_succ front))
    have below : inner ∈ Outline.branchWays key 0 (g.outline (key :: above) (g.edges key)) ↔
        g.GoesOn (key :: above) key 0 inner :=
      ihBelow List.drop_zero
    rw [Outline.key, Outline.waysBelow, List.mem_cons, below, isSimple_iff, and_iff_right off]
  | case4 above key keys off unknown ih =>
    rw [outline, dif_neg off, dif_neg unknown]
    refine step front (fun inner => ?_) (ih (drop_succ front))
    rw [Outline.key, Outline.waysBelow, Outline.branchWays, List.mem_singleton]
    constructor
    · rintro rfl
      exact ⟨.stays, List.nodup_nil, nofun⟩
    · intro simple
      obtain ⟨edges, last⟩ := inner
      cases simple.leads.eq_nil unknown
      cases simple.leads
      rfl

/-- The ways below a module at the top of the tree. -/
theorem mem_waysFrom_iff : way ∈ g.waysFrom root ↔
    way.edges ≠ [] ∧ g.Leads root way.edges way.last ∧ way.sources.Nodup := by
  rw [waysFrom, mem_branchWays_outline List.drop_zero]
  constructor
  · intro goesOn
    have simple : g.IsSimple [] root way := isSimple_iff.mpr (Or.inr ⟨List.not_mem_nil, goesOn⟩)
    obtain ⟨place, _, inner, _, _, _, rfl⟩ := goesOn
    exact ⟨List.cons_ne_nil _ _, simple.leads, simple.distinct⟩
  · rintro ⟨some, leads, distinct⟩
    rcases isSimple_iff.mp ⟨leads, distinct, fun _ _ => List.not_mem_nil⟩ with rfl | ⟨_, goesOn⟩
    · exact absurd rfl some
    · exact goesOn

/-- The line of a way that goes on below some modules. -/
def lineBelow (g : Graph) (label : String → String) (above : List String) (way : Way) : String :=
  g.margin way.edges ++ label way.last ++ if way.last ∈ above ∨
    way.last ∈ way.sources then " (∞ -> " ++ way.last ++ ")" else ""

variable {label : String → String}

theorem lineBelow_congr {others : List String}
    (same : ∀ key, key ∈ above ∨ key ∈ way.sources ↔ key ∈ others ∨ key ∈ way.sources) :
    g.lineBelow label above way = g.lineBelow label others way := by
  rw [lineBelow, lineBelow, if_congr (same _) rfl rfl]

theorem lineBelow_edge {edge : Edge} (isAbove : edge.source ∈ above) (key : String) :
    g.lineBelow label above (.after edge ⟨[], key⟩) =
      Outline.branch (g.isLast edge) ++ label key ++ if key ∈ above then " (∞ -> " ++ key ++ ")" else "" := by
  have same : key ∈ above ∨ key ∈ [edge.source] ↔ key ∈ above :=
    ⟨fun found => found.elim id fun isSource => List.mem_singleton.mp isSource ▸ isAbove, Or.inl⟩
  have margin_eq : g.margin [edge] = Outline.branch (g.isLast edge) := String.empty_append
  rw [← margin_eq, ← if_congr same rfl rfl]
  rfl

theorem lineBelow_after {edge : Edge} (isAbove : edge.source ∈ above) (some : way.edges ≠ []) :
    g.lineBelow label above (way.after edge) = Outline.stem (g.isLast edge) ++ g.lineBelow label above way := by
  obtain ⟨next, edges, eq⟩ := List.exists_cons_of_ne_nil some
  have margin_eq : g.margin (edge :: way.edges) = Outline.stem (g.isLast edge) ++ g.margin way.edges := by
    rw [eq, margin, margin, List.dropLast_cons_cons, List.map_cons, String.join_cons, List.getLast?_cons_cons,
      String.append_assoc]
    rfl
  have same : way.last ∈ above ∨ way.last ∈ edge.source :: way.sources ↔
      way.last ∈ above ∨ way.last ∈ way.sources := by
    rw [List.mem_cons]
    constructor
    · rintro (old | isSource | new)
      · exact Or.inl old
      · exact Or.inl (isSource ▸ isAbove)
      · exact Or.inr new
    · exact Or.imp_right Or.inr
  rw [lineBelow, lineBelow, ← String.append_assoc, ← String.append_assoc, ← margin_eq]
  exact congrArg _ (if_congr same rfl rfl)

theorem isLast_eq (front : (g.edges source).drop index = key :: keys) : g.isLast ⟨source, index⟩ = keys.isEmpty := by
  have length := congrArg List.length front
  rw [List.length_drop, List.length_cons] at length
  rw [isLast, Bool.eq_iff_iff, decide_eq_true_eq, List.isEmpty_iff_length_eq_zero]
  dsimp only
  omega

theorem isEmpty_outline : (g.outline above keys).isEmpty = keys.isEmpty := by
  cases keys with
  | nil => rw [outline]; rfl
  | cons key keys =>
    rw [outline]
    split
    · rfl
    · split <;> rfl

/-- The lines below a module are those of the ways that stand below it. -/
theorem branchLines_outline (isAbove : source ∈ above) (front : (g.edges source).drop index = keys) (m : String) :
    Outline.branchLines label m (g.outline above keys) =
      (Outline.branchWays source index (g.outline above keys)).map fun way => m ++ g.lineBelow label above way := by
  -- the line of an entry is that of the edge to it, and the lines below it go on from the stem under its branch
  have step {entry : Outline} {above keys : List String} {key source : String} {index : Nat} {m : String}
    (isAbove : source ∈ above)
      (front : (g.edges source).drop index = key :: keys)
      (title : entry.title label = label entry.key ++ if entry.key ∈ above then " (∞ -> " ++ entry.key ++ ")" else "")
      (below : ∀ m, entry.linesBelow label m = entry.waysBelow.map fun way => m ++ g.lineBelow label above way)
      (later : Outline.branchLines label m (g.outline above keys) =
        (Outline.branchWays source (index + 1) (g.outline above keys)).map fun way => m ++
          g.lineBelow label above way) :
      Outline.branchLines label m (entry :: g.outline above keys) =
        (Outline.branchWays source index (entry :: g.outline above keys)).map fun way => m ++
            g.lineBelow label above way := by
    have first : m ++ Outline.branch (g.isLast ⟨source, index⟩) ++ entry.title label =
        m ++ g.lineBelow label above (.after ⟨source, index⟩ ⟨[], entry.key⟩) := by
      rw [title, lineBelow_edge isAbove]
      simp only [String.append_assoc]
    have others (way : Way) (member : way ∈ entry.waysBelow) :
        m ++ Outline.stem (g.isLast ⟨source, index⟩) ++ g.lineBelow label above way =
          m ++ g.lineBelow label above (way.after ⟨source, index⟩) := by
      rw [lineBelow_after isAbove (edges_ne_nil_of_mem_waysBelow member), String.append_assoc]
    rw [Outline.branchLines, Outline.branchWays, isEmpty_outline, ← isLast_eq front, first, below, later,
      List.map_append, List.map_map, List.map_cons]
    rw [List.map_congr_left others]
    rfl
  induction above, keys using outline.induct g generalizing source index m with
  | case1 above =>
    rw [outline, Outline.branchWays, Outline.branchLines]
    rfl
  | case2 above key keys on ih =>
    rw [outline, dif_pos on]
    refine step isAbove front ?_ (fun m => ?_) (ih isAbove (drop_succ front) m)
    · rw [Outline.title, Outline.key, if_pos on]
      simp only [String.append_assoc]
    · rw [Outline.linesBelow, Outline.waysBelow]
      rfl
  | case3 above key keys off known ihBelow ih =>
    rw [outline, dif_neg off, dif_pos known]
    refine step isAbove front ?_ (fun m => ?_) (ih isAbove (drop_succ front) m)
    · rw [Outline.title, Outline.key, if_neg off, String.append_empty]
    · rw [Outline.linesBelow, Outline.waysBelow, ihBelow List.mem_cons_self List.drop_zero]
      refine List.map_congr_left fun way member => congrArg _ (lineBelow_congr fun other => ?_)
      obtain ⟨place, edges, _, eq⟩ := exists_edge_of_mem_branchWays member
      rw [Way.sources, eq, List.map_cons, List.mem_cons, List.mem_cons]
      constructor
      · rintro ((rfl | old) | new)
        · exact Or.inr (Or.inl rfl)
        · exact Or.inl old
        · exact Or.inr new
      · exact Or.imp_left Or.inr
  | case4 above key keys off unknown ih =>
    rw [outline, dif_neg off, dif_neg unknown]
    refine step isAbove front ?_ (fun m => ?_) (ih isAbove (drop_succ front) m)
    · rw [Outline.title, Outline.key, if_neg off, String.append_empty]
    · rw [Outline.linesBelow, Outline.waysBelow, Outline.branchLines, Outline.branchWays]
      rfl

variable {withLocation : Bool}

theorem label_eq_shown (g : Graph) (withLocation : Bool) : g.label withLocation = g.shown withLocation := by
  funext key
  have search : g.get? key = g.nodes.toList.find? fun node => node.file.relativePath = key := rfl
  unfold label shown
  rw [search]
  cases withLocation <;> cases g.nodes.toList.find? fun node => node.file.relativePath = key <;> rfl

theorem line_eq_lineBelow (member : way ∈ g.waysFrom root) :
    g.line withLocation way = g.lineBelow (g.shown withLocation) [root] way := by
  obtain ⟨place, edges, _, eq⟩ := exists_edge_of_mem_branchWays member
  have isSource : root ∈ way.sources := by
    rw [Way.sources, eq]
    exact List.mem_cons_self
  have same : way.last ∈ way.sources ↔ way.last ∈ [root] ∨ way.last ∈ way.sources :=
    ⟨Or.inr, fun found => found.elim (fun isRoot => List.mem_singleton.mp isRoot ▸ isSource) id⟩
  exact congrArg _ (if_congr same rfl rfl)

theorem line_root (root : String) : g.line withLocation ⟨[], root⟩ = g.shown withLocation root := by
  have plain : g.line withLocation ⟨[], root⟩ = "" ++ g.shown withLocation root ++ "" := rfl
  rw [plain, String.append_empty, String.empty_append]

theorem lines_outline (known : ∀ key ∈ keys, key ∈ g.keys) :
    (g.outline [] keys).flatMap (Outline.lines (g.shown withLocation)) =
      keys.flatMap fun root => g.shown withLocation root :: (g.waysFrom root).map (g.line withLocation) := by
  induction keys with
  | nil =>
    rw [outline]
    rfl
  | cons key keys ih =>
    have below : Outline.branchLines (g.shown withLocation) "" (g.outline [key] (g.edges key)) =
        (g.waysFrom key).map (g.line withLocation) := by
      rw [branchLines_outline List.mem_cons_self List.drop_zero]
      refine List.map_congr_left fun way member => ?_
      rw [line_eq_lineBelow member, String.empty_append]
    rw [outline, dif_neg List.not_mem_nil, dif_pos (known key List.mem_cons_self),
      List.flatMap_cons, List.flatMap_cons,
      ih fun other member => known other (List.mem_cons_of_mem _ member), Outline.lines, Outline.title,
        Outline.linesBelow, below]

/-- Whether a module is imported, be it by itself. -/
def IsImported (g : Graph) (key : String) : Prop := ∃ importer, key ∈ g.edges importer

/-- At the top stand the modules that are not imported, or all of them if each is imported. -/
theorem mem_roots_iff : root ∈ g.roots ↔ root ∈ g.keys ∧ (¬g.IsImported root ∨ ∀ key ∈ g.keys, g.IsImported key) := by
  have imported_iff (key : String) : key ∈ g.keys.flatMap g.edges ↔ g.IsImported key := by
    rw [List.mem_flatMap]
    exact ⟨fun ⟨importer, _, edge⟩ => ⟨importer, edge⟩,
      fun ⟨importer, edge⟩ => ⟨importer, mem_keys_of_edge edge, edge⟩⟩
  have filter_iff (key : String) :
      key ∈ g.keys.filter (fun key => !(g.keys.flatMap g.edges).contains key) ↔ key ∈ g.keys ∧ ¬g.IsImported key := by
    simp [← imported_iff]
  have empty_iff : (g.keys.filter fun key => !(g.keys.flatMap g.edges).contains key).isEmpty ↔
      ∀ key ∈ g.keys, g.IsImported key := by
    rw [List.isEmpty_iff, List.eq_nil_iff_forall_not_mem]
    simp only [filter_iff, not_and, not_not]
  simp only [roots]
  by_cases all : ∀ key ∈ g.keys, g.IsImported key
  · rw [if_pos (empty_iff.mpr all)]
    exact (and_iff_left (Or.inr all)).symm
  · rw [if_neg (all ∘ empty_iff.mp), filter_iff, or_iff_left all]

theorem roots_sublist_keys (g : Graph) : g.roots.Sublist g.keys := by
  simp only [roots]
  split
  · exact List.Sublist.refl _
  · exact List.filter_sublist

theorem map_line_ways (g : Graph) (withLocation : Bool) : g.ways.map (g.line withLocation) =
    g.roots.flatMap fun root => g.shown withLocation root :: (g.waysFrom root).map (g.line withLocation) := by
  rw [ways, List.map_flatMap]
  simp only [List.map_cons, line_root]

theorem outlineText_eq (g : Graph) (withLocation : Bool) :
    g.outlineText withLocation = String.join ((g.ways.map (g.line withLocation)).map (· ++ "\n")) := by
  rw [outlineText, wholeOutline, label_eq_shown, lines_outline fun key member => (mem_roots_iff.mp member).1,
    map_line_ways]

/-- The text of the tree: at the top stand the modules that are not imported, or all of them if each is imported, and
below each of these the lines of the ways from it that lead on from no module twice, in the order of the places of
their edges. -/
theorem text_by_ways (g : Graph) (withLocation : Bool) :
    g.outlineText withLocation = String.join ((g.roots.flatMap fun root =>
      g.shown withLocation root :: (g.waysFrom root).map (g.line withLocation)).map (· ++ "\n")) ∧
    (g.roots.Sublist g.keys ∧
      ∀ root, root ∈ g.roots ↔ root ∈ g.keys ∧ (¬g.IsImported root ∨ ∀ key ∈ g.keys, g.IsImported key)) ∧
    ∀ root, ((g.waysFrom root).map Way.indices).Pairwise (· < ·) ∧
      ∀ way, way ∈ g.waysFrom root ↔ way.edges ≠ [] ∧ g.Leads root way.edges way.last ∧ way.sources.Nodup := by
  refine ⟨?_, ⟨g.roots_sublist_keys, fun _ => mem_roots_iff⟩, fun root =>
    ⟨pairwise_branchWays root 0 _, fun way => mem_waysFrom_iff⟩⟩
  rw [outlineText_eq, map_line_ways]

end ModuleBundler.Graph
