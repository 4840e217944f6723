import ModuleBundler.Proofs.Graph.Insertion

namespace ModuleBundler.Graph

variable {g : Graph} {nodes : List ModuleNode} {node : ModuleNode} {key specifier : String}

/-- Whether an import may be the module with a key: the key without its extension stands in the import, or the
last part of the import stands in the key and is not empty. -/
def Matches (specifier key : String) : Prop :=
  withoutExtension key.toList <:+: specifier.toList ∨
    Text.afterLast '/' specifier.toList ≠ [] ∧ Text.afterLast '/' specifier.toList <:+: key.toList

theorem isMatch_iff : isMatch specifier.toList key.toList = true ↔ Matches specifier key := by
  simp [isMatch, Matches, Text.occursIn_iff]

instance (specifier key : String) : Decidable (Matches specifier key) := decidable_of_iff _ isMatch_iff

theorem resolve?_eq_some_iff : g.resolve? specifier = some key ↔
    ∃ front back, g.keys = front ++ key :: back ∧ Matches specifier key ∧ ∀ other ∈ front,
        ¬Matches specifier other := by
  simp only [resolve?, List.find?_eq_some_iff_append, Bool.not_eq_true', ← Bool.not_eq_true, isMatch_iff]
  constructor
  · rintro ⟨matched, front, back, split, others⟩
    exact ⟨front, back, split, matched, others⟩
  · rintro ⟨front, back, split, matched, others⟩
    exact ⟨matched, front, back, split, others⟩

theorem resolve?_eq_none_iff : g.resolve? specifier = none ↔ ∀ key ∈ g.keys, ¬Matches specifier key := by
  simp only [resolve?, List.find?_eq_none, isMatch_iff]

theorem resolve?_insert_of_mem (known : node.key ∈ g.keys) : (g.insert node).resolve? = g.resolve? :=
  resolve?_congr (by rw [keys_insert, if_pos known])

/-- A new module takes an import if no other module does. -/
theorem resolve?_insert_of_notMem (new : node.key ∉ g.keys) (specifier : String) :
    (g.insert node).resolve? specifier =
    (g.resolve? specifier).or (if Matches specifier node.key then some node.key else none) := by
  rw [resolve?, keys_insert, if_neg new, List.find?_append, List.find?_singleton]
  simp only [isMatch_iff]
  rfl

/-- The graph of some modules that are inserted one after the other. -/
def ofNodes (nodes : List ModuleNode) : Graph := nodes.foldl insert .empty

theorem nodes_ofNodes (nodes : List ModuleNode) : (ofNodes nodes).nodes = .ofList nodes :=
  (List.foldl_hom Graph.nodes fun _ _ => rfl).symm

theorem keys_ofNodes (nodes : List ModuleNode) : (ofNodes nodes).keys = (nodes.map ModuleNode.key).eraseDups := by
  rw [keys, nodes_ofNodes, KeyedList.keys_ofList]

theorem get?_ofNodes_eq_some_iff : (ofNodes nodes).get? key = some node ↔
    ∃ before after, nodes = before ++ node :: after ∧ node.key = key ∧ ∀ later ∈ after, later.key ≠ key := by
  rw [get?, nodes_ofNodes, KeyedList.get?_ofList_eq_some_iff]

/-- Whatever has been inserted in whatever order, a graph lists the keys as each came first, finds the last module
with a key, and leads an import to the first key that matches it. One more module in the place of another one
changes neither where imports lead nor the edges of other modules. A new one changes only where those imports lead
that have led nowhere: to itself if they match it. -/
theorem after_inserts (nodes : List ModuleNode) :
    (ofNodes nodes).keys = (nodes.map ModuleNode.key).eraseDups ∧
    (∀ key node, (ofNodes nodes).get? key = some node ↔
      ∃ before after, nodes = before ++ node :: after ∧ node.key = key ∧ ∀ later ∈ after, later.key ≠ key) ∧
    (∀ specifier key, (ofNodes nodes).resolve? specifier = some key ↔ ∃ front back,
      (nodes.map ModuleNode.key).eraseDups = front ++ key :: back ∧ Matches specifier key ∧ ∀ other ∈ front,
        ¬Matches specifier other) ∧
    (∀ specifier, (ofNodes nodes).resolve? specifier = none ↔
      ∀ key ∈ nodes.map ModuleNode.key, ¬Matches specifier key) ∧
    (∀ node, node.key ∈ nodes.map ModuleNode.key → ((ofNodes nodes).insert node).resolve? = (ofNodes nodes).resolve? ∧
      ∀ key, key ≠ node.key → ((ofNodes nodes).insert node).edges key = (ofNodes nodes).edges key) ∧
    ∀ node, node.key ∉ nodes.map ModuleNode.key → ∀ specifier, ((ofNodes nodes).insert node).resolve? specifier =
      ((ofNodes nodes).resolve? specifier).or (if Matches specifier node.key then some node.key else none) := by
  have known_iff (key : String) : key ∈ (ofNodes nodes).keys ↔ key ∈ nodes.map ModuleNode.key := by
    rw [keys_ofNodes, List.mem_eraseDups]
  refine ⟨keys_ofNodes nodes, fun key node => get?_ofNodes_eq_some_iff, fun specifier key => ?_, fun specifier => ?_,
    fun node known => ?_, fun node new => resolve?_insert_of_notMem (mt (known_iff node.key).mp new)⟩
  · rw [resolve?_eq_some_iff, keys_ofNodes]
  · simp only [resolve?_eq_none_iff, known_iff]
  · have known := (known_iff node.key).mpr known
    refine ⟨resolve?_insert_of_mem known, fun key other => ?_⟩
    rw [edges_insert_of_mem node known, if_neg other]

/-- A module that is known by its path and its imports alone. -/
def bareNode (path : String) (imports : List String) : ModuleNode := ⟨.ofRelativePath path path path, imports, ""⟩

/-- Two modules, of which the first one is inserted again with an import. -/
def twiceInserted : List ModuleNode := [bareNode "a.js" [], bareNode "b.js" ["./a", "./c"], bareNode "a.js" ["./b"]]

theorem after_inserts_twice : (bareNode "a.js" []).key ∈ twiceInserted.map ModuleNode.key ∧
    (bareNode "lib/c.js" []).key ∉ twiceInserted.map ModuleNode.key ∧
    (ofNodes twiceInserted).keys = ["a.js", "b.js"] ∧
    (ofNodes twiceInserted).get? "a.js" = some (bareNode "a.js" ["./b"]) ∧
    ((ofNodes twiceInserted).insert (bareNode "a.js" [])).edges "b.js" = (ofNodes twiceInserted).edges "b.js" ∧
    (ofNodes twiceInserted).resolve? "./c" = none ∧
    ((ofNodes twiceInserted).insert (bareNode "lib/c.js" [])).resolve? "./c" = some "lib/c.js" := by
  have known : (bareNode "a.js" []).key ∈ twiceInserted.map ModuleNode.key := by decide
  have unknown : (bareNode "lib/c.js" []).key ∉ twiceInserted.map ModuleNode.key := by decide
  obtain ⟨keys, found, _, nowhere_iff, again, new⟩ := after_inserts twiceInserted
  have nowhere : (ofNodes twiceInserted).resolve? "./c" = none := (nowhere_iff "./c").mpr (by decide)
  refine ⟨known, unknown, keys.trans (by decide), (found _ _).mpr ⟨twiceInserted.take 2, [], rfl, rfl, nofun⟩,
    (again _ known).2 "b.js" (by decide), nowhere, ?_⟩
  rw [new _ unknown, nowhere]
  decide

end ModuleBundler.Graph
