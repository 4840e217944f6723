import ModuleBundler.Proofs.Graph.History
import ModuleBundler.Proofs.Graph.Outline

namespace ModuleBundler.Graph

variable {g h : Graph} {nodes others : List ModuleNode} {specifier key : String}

/-- Whether a list holds each module of a graph once, behind all modules that it imports. -/
def IsTopological (g : Graph) (order : List String) : Prop :=
  order.Perm g.keys ∧ ∀ u v, v ∈ g.edges u → [v, u].Sublist order

theorem ordered_order (g : Graph) : Traverses.Ordered g ⟨g.order, ∅⟩ :=
  (g.traverses_walk [] [] g.keys).ordered (fun front w leads => by simp at leads) fun p on => by simp at on

theorem isTopological_order (acyclic : g.Acyclic) : g.IsTopological g.order := by
  refine ⟨g.order_perm_keys, fun u v edge => ?_⟩
  obtain ⟨front, back, split⟩ := List.append_of_mem (mem_order_iff.mpr (mem_keys_of_edge edge))
  have leads : front ++ [u] <+: g.order := ⟨back, by rw [split, List.append_assoc]; rfl⟩
  have before : v ∈ front := (g.ordered_order front u leads v edge).resolve_right (acyclic u v edge)
  rw [split]
  exact (List.singleton_sublist.mpr before).append (List.singleton_sublist.mpr List.mem_cons_self)

/-- What is a topological order depends on the modules and their edges alone. -/
theorem IsTopological.congr {order : List String} (keys : g.keys.Perm h.keys) (edges : g.edges = h.edges)
    (topological : g.IsTopological order) : h.IsTopological order :=
  ⟨topological.1.trans keys, edges ▸ topological.2⟩

theorem Acyclic.congr (edges : g.edges = h.edges) (acyclic : g.Acyclic) : h.Acyclic := by
  rw [Acyclic, Reaches, ← edges]
  exact acyclic

/-- Whether no import of some modules matches two of their keys. -/
def Unambiguous (nodes : List ModuleNode) : Prop :=
  ∀ node ∈ nodes, ∀ specifier ∈ node.imports, ∀ one ∈ nodes, ∀ other ∈ nodes,
    Matches specifier one.key → Matches specifier other.key → one.key = other.key

instance (nodes : List ModuleNode) : Decidable (Unambiguous nodes) := inferInstanceAs (Decidable (∀ _ ∈ _, _))

/-- Where no other key matches, it makes no difference which key is the first one. -/
theorem resolve?_eq_some_iff_mem (unique : ∀ one ∈ g.keys, ∀ other ∈ g.keys, Matches specifier one →
    Matches specifier other → one = other) :
    g.resolve? specifier = some key ↔ key ∈ g.keys ∧ Matches specifier key := by
  rw [resolve?_eq_some_iff]
  constructor
  · rintro ⟨front, back, split, matched, _⟩
    exact ⟨split ▸ List.mem_append_right _ List.mem_cons_self, matched⟩
  · rintro ⟨known, matched⟩
    obtain ⟨front, back, split⟩ := List.append_of_mem known
    refine ⟨front, back, split, matched, fun other before matched' => ?_⟩
    have distinct : (front ++ key :: back).Nodup := split ▸ g.nodes.keys_nodup
    have same := unique key known other (split ▸ List.mem_append_left _ before) matched matched'
    exact (List.nodup_append.mp distinct).2.2 other before key List.mem_cons_self same.symm

theorem keys_perm (perm : g.nodes.toList.Perm h.nodes.toList) : g.keys.Perm h.keys := perm.map ModuleNode.key

theorem importsOf_eq_of_perm (perm : g.nodes.toList.Perm h.nodes.toList) (key : String) :
    g.importsOf key = h.importsOf key := by
  have found : g.get? key = h.get? key := KeyedList.get?_eq_of_perm perm key
  rw [importsOf, found, importsOf]

theorem mem_of_mem_importsOf (member : specifier ∈ g.importsOf key) :
    ∃ node ∈ g.nodes.toList, specifier ∈ node.imports := by
  unfold importsOf at member
  split at member
  · next node found => exact ⟨node, (KeyedList.get?_eq_some_iff.mp found).1, member⟩
  · cases member

theorem edges_eq_of_perm (perm : g.nodes.toList.Perm h.nodes.toList) (unambiguous : Unambiguous g.nodes.toList) :
    g.edges = h.edges := by
  funext key
  rw [edges, edges, ← importsOf_eq_of_perm perm]
  refine List.filterMap_congr fun specifier member => ?_
  obtain ⟨node, inGraph, imported⟩ := mem_of_mem_importsOf member
  have unique (one : String) (isKey : one ∈ g.keys) (other : String) (isKey' : other ∈ g.keys)
    (matched : Matches specifier one)
      (matched' : Matches specifier other) : one = other := by
    obtain ⟨first, inGraph', rfl⟩ := List.mem_map.mp isKey
    obtain ⟨second, inGraph'', rfl⟩ := List.mem_map.mp isKey'
    exact unambiguous node inGraph specifier imported first inGraph' second inGraph'' matched matched'
  have unique' (one : String) (isKey : one ∈ h.keys) (other : String) (isKey' : other ∈ h.keys) :=
    unique one ((keys_perm perm).mem_iff.mpr isKey) other ((keys_perm perm).mem_iff.mpr isKey')
  ext key
  rw [resolve?_eq_some_iff_mem unique, resolve?_eq_some_iff_mem unique', (keys_perm perm).mem_iff]

theorem roots_nodup (g : Graph) : g.roots.Nodup := by
  simp only [roots]
  split
  · exact g.nodes.keys_nodup
  · exact g.nodes.keys_nodup.filter _

theorem roots_perm (keys : g.keys.Perm h.keys) (edges : g.edges = h.edges) : g.roots.Perm h.roots := by
  refine (List.perm_ext_iff_of_nodup g.roots_nodup h.roots_nodup).mpr fun root => ?_
  have imported (key : String) : g.IsImported key ↔ h.IsImported key := by rw [IsImported, edges, IsImported]
  simp only [mem_roots_iff, imported, keys.mem_iff]

/-- Modules with different keys whose imports match one of them at most have the same edges in whatever order they
are inserted, and so the tree begins with the same modules. If there are no cycles, each of the two orders is a
topological one for the edges of both. -/
theorem edges_of_perm (perm : nodes.Perm others) (distinct : (nodes.map ModuleNode.key).Nodup)
    (unambiguous : Unambiguous nodes) :
    (∀ key, (ofNodes nodes).edges key = (ofNodes others).edges key) ∧
    (ofNodes nodes).roots.Perm (ofNodes others).roots ∧
    ((ofNodes nodes).Acyclic → (ofNodes nodes).IsTopological (ofNodes nodes).order ∧
      (ofNodes nodes).IsTopological (ofNodes others).order) := by
  have made (nodes : List ModuleNode) (distinct : (nodes.map ModuleNode.key).Nodup) :
      (ofNodes nodes).nodes.toList = nodes := by
    rw [nodes_ofNodes, KeyedList.toList_ofList distinct]
  have same : (ofNodes nodes).nodes.toList.Perm (ofNodes others).nodes.toList := by
    rwa [made nodes distinct, made others ((perm.map _).nodup_iff.mp distinct)]
  have edges : (ofNodes nodes).edges = (ofNodes others).edges :=
    edges_eq_of_perm same ((made nodes distinct).symm ▸ unambiguous)
  have keys := keys_perm same
  refine ⟨congrFun edges, roots_perm keys edges, fun acyclic => ⟨isTopological_order acyclic, ?_⟩⟩
  exact (isTopological_order (acyclic.congr edges)).congr keys.symm edges.symm

/-- A module with three imports, the last of which leads to no module, and the modules that it imports. -/
def threeNodes : List ModuleNode :=
  [bareNode "main.js" ["./one", "./lib/two.js", "three"], bareNode "one.js" [], bareNode "lib/two.js" []]

theorem acyclic_threeNodes : (ofNodes threeNodes).Acyclic := by
  have targets : ∀ u ∈ (ofNodes threeNodes).keys, ∀ v ∈ (ofNodes threeNodes).edges u, v ≠ u ∧
      (ofNodes threeNodes).edges v = [] := by
    decide
  intro u v edge way
  obtain ⟨other, leaf⟩ := targets u (mem_keys_of_edge edge) v edge
  rcases way.cases_head with same | ⟨next, onward, _⟩
  · exact other same
  · rw [leaf] at onward
    cases onward

theorem edges_of_perm_reverse : threeNodes.Perm threeNodes.reverse ∧ (threeNodes.map ModuleNode.key).Nodup ∧
    Unambiguous threeNodes ∧
    (ofNodes threeNodes.reverse).edges "main.js" = ["one.js", "lib/two.js"] ∧
    ["main.js"].Perm (ofNodes threeNodes.reverse).roots ∧
    (ofNodes threeNodes).Acyclic ∧ (ofNodes threeNodes).IsTopological (ofNodes threeNodes.reverse).order := by
  have perm := (List.reverse_perm threeNodes).symm
  have distinct : (threeNodes.map ModuleNode.key).Nodup := by decide
  have unambiguous : Unambiguous threeNodes := by decide
  obtain ⟨edges, roots, orders⟩ := edges_of_perm perm distinct unambiguous
  refine ⟨perm, distinct, unambiguous, (edges "main.js").symm.trans (by decide), ?_, acyclic_threeNodes,
    (orders acyclic_threeNodes).2⟩
  exact (by decide : (ofNodes threeNodes).roots = ["main.js"]) ▸ roots

end ModuleBundler.Graph
