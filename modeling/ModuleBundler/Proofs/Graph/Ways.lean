import ModuleBundler.Proofs.Graph.Traversal

namespace ModuleBundler.Graph

/-- An edge, by the module that it leads from and its place among the edges of this module. -/
structure Edge where
  source : String
  index : Nat

variable {g : Graph} {edge : Edge} {edges : List Edge} {key next last u v : String}

/-- The module that an edge leads to. -/
def target? (g : Graph) (edge : Edge) : Option String := (g.edges edge.source)[edge.index]?

/-- Whether an edge is the last one of its module. -/
def isLast (g : Graph) (edge : Edge) : Bool := edge.index + 1 = (g.edges edge.source).length

/-- Edges lead from one module to another if each of them leads to the module that the next one leads from. -/
inductive Leads (g : Graph) : String → List Edge → String → Prop
  | stays {key : String} : Leads g key [] key
  | goes {edge : Edge} {edges : List Edge} {next last : String} :
      g.target? edge = some next → Leads g next edges last → Leads g edge.source (edge :: edges) last

theorem mem_edges_of_target (target : g.target? edge = some next) : next ∈ g.edges edge.source :=
  List.mem_of_getElem? target

theorem Leads.reaches (leads : g.Leads u edges v) : g.Reaches u v := by
  induction leads with
  | stays => exact Relation.ReflTransGen.refl
  | goes target _ ih => exact Relation.ReflTransGen.head (mem_edges_of_target target) ih

/-- A way that leads from a module leads on from there by its last edges. -/
theorem Leads.suffix_from (leads : g.Leads u edges v) (member : key ∈ edges.map Edge.source) :
    ∃ back, back <:+ edges ∧ g.Leads key back v := by
  induction leads with
  | stays => cases member
  | @goes edge edges next last target rest ih =>
    rcases List.mem_cons.mp member with rfl | later
    · exact ⟨_, List.suffix_rfl, .goes target rest⟩
    · obtain ⟨back, isSuffix, leads⟩ := ih later
      exact ⟨back, isSuffix.trans (List.suffix_cons edge edges), leads⟩

/-- A way that comes back to its first module can begin there instead. -/
theorem exists_simple_leads (way : g.Reaches u v) : ∃ edges, g.Leads u edges v ∧ (edges.map Edge.source).Nodup := by
  induction way using Relation.ReflTransGen.head_induction_on with
  | refl => exact ⟨[], .stays, List.nodup_nil⟩
  | @head u next edge _ ih =>
    obtain ⟨edges, leads, distinct⟩ := ih
    by_cases again : u ∈ edges.map Edge.source
    · obtain ⟨back, isSuffix, leads'⟩ := leads.suffix_from again
      exact ⟨back, leads', distinct.sublist (isSuffix.sublist.map Edge.source)⟩
    · obtain ⟨index, target⟩ := List.mem_iff_getElem?.mp edge
      have goes : g.target? ⟨u, index⟩ = some next := target
      exact ⟨⟨u, index⟩ :: edges, .goes goes leads, List.nodup_cons.mpr ⟨again, distinct⟩⟩

/-- A module that is not in the graph leads nowhere but to itself. -/
theorem Leads.eq_nil (leads : g.Leads u edges v) (unknown : u ∉ g.keys) : edges = [] := by
  cases leads with
  | stays => rfl
  | goes target => exact absurd (mem_keys_of_edge (mem_edges_of_target target)) unknown

end ModuleBundler.Graph
