import ModuleBundler.Proofs.Graph.Order
import ModuleBundler.Proofs.KeyedList

namespace ModuleBundler.Graph

variable {g : Graph} {node : ModuleNode} {key : String}

theorem keys_insert (g : Graph) (node : ModuleNode) :
    (g.insert node).keys = if node.key ∈ g.keys then g.keys else g.keys ++ [node.key] := g.nodes.keys_put node

theorem get?_insert (g : Graph) (node : ModuleNode) (key : String) :
    (g.insert node).get? key = if key = node.key then some node else g.get? key := g.nodes.get?_put node key

theorem importsOf_of_mem (member : node ∈ g.nodes.toList) : g.importsOf node.key = node.imports := by
  have found : g.get? node.key = some node := KeyedList.get?_eq_some_iff.mpr ⟨member, rfl⟩
  rw [importsOf, found]

theorem importsOf_insert (g : Graph) (node : ModuleNode) (key : String) :
    (g.insert node).importsOf key = if key = node.key then node.imports else g.importsOf key := by
  rw [importsOf, get?_insert]
  by_cases same : key = node.key
  · rw [if_pos same, if_pos same]
  · rw [if_neg same, if_neg same, importsOf]

theorem resolve?_congr {h : Graph} (keys : g.keys = h.keys) : g.resolve? = h.resolve? := by
  funext specifier
  rw [resolve?, keys, resolve?]

/-- A module that takes the place of another one. -/
theorem edges_insert_of_mem (node : ModuleNode) (known : node.key ∈ g.keys) (key : String) :
    (g.insert node).edges key = if key = node.key then node.imports.filterMap g.resolve? else g.edges key := by
  have keys : (g.insert node).keys = g.keys := by rw [keys_insert, if_pos known]
  rw [edges, resolve?_congr keys, importsOf_insert]
  split <;> rfl

end ModuleBundler.Graph
