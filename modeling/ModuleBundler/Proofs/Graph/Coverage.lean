import Mathlib.Data.Set.Finite.List
import Mathlib.Order.WellFoundedSet
import ModuleBundler.Proofs.Graph.Order
import ModuleBundler.Proofs.Graph.Outline

namespace ModuleBundler.Graph

variable {g : Graph} {key : String}

/-- Whether a line of the tree is that of a module. -/
def Shows (g : Graph) (key : String) : Prop := ∃ way ∈ g.ways, way.last = key

theorem shows_iff : g.Shows key ↔ ∃ root ∈ g.roots, g.Reaches root key := by
  constructor
  · rintro ⟨way, member, rfl⟩
    obtain ⟨root, isRoot, isWay⟩ := List.mem_flatMap.mp member
    refine ⟨root, isRoot, ?_⟩
    rcases List.mem_cons.mp isWay with rfl | below
    · exact Relation.ReflTransGen.refl
    · exact (mem_waysFrom_iff.mp below).2.1.reaches
  · rintro ⟨root, isRoot, way⟩
    obtain ⟨edges, leads, distinct⟩ := exists_simple_leads way
    refine ⟨⟨edges, key⟩, List.mem_flatMap.mpr ⟨root, isRoot, List.mem_cons.mpr ?_⟩, rfl⟩
    by_cases none : edges = []
    · subst none
      cases leads
      exact Or.inl rfl
    · exact Or.inr (mem_waysFrom_iff.mpr ⟨none, leads, distinct⟩)

/-- Where there are no cycles, the way back from a module along its importers comes to an end. -/
theorem exists_reaches_of_acyclic (acyclic : g.Acyclic) (known : key ∈ g.keys) :
    ∃ root ∈ g.keys, ¬g.IsImported root ∧ g.Reaches root key := by
  have irrefl : Std.Irrefl (Relation.TransGen fun u v => v ∈ g.edges u) := by
    refine ⟨fun u cycle => ?_⟩
    obtain ⟨v, edge, way⟩ := Relation.TransGen.head'_iff.mp cycle
    exact acyclic u v edge way
  have strict : IsStrictOrder String (Relation.TransGen fun u v => v ∈ g.edges u) := {}
  have wellFounded : Set.WellFoundedOn { key | key ∈ g.keys } (Relation.TransGen fun u v => v ∈ g.edges u) :=
    (List.finite_toSet g.keys).wellFoundedOn
  refine wellFounded.induction (P := fun key => ∃ root ∈ g.keys, ¬g.IsImported root ∧
    g.Reaches root key) known fun key known ih => ?_
  by_cases imported : g.IsImported key
  · obtain ⟨importer, edge⟩ := imported
    obtain ⟨root, isKey, notImported, way⟩ := ih importer (mem_keys_of_edge edge) (Relation.TransGen.single edge)
    exact ⟨root, isKey, notImported, way.tail edge⟩
  · exact ⟨key, known, imported, Relation.ReflTransGen.refl⟩

/-- The lines of the tree are those of its ways, and a module has one exactly if it can be reached from the top.
So the tree shows every module exactly if each is imported, or each can be reached from one that is not; it does
if there are no cycles. -/
theorem shows_all_iff (g : Graph) :
    (∀ withLocation, g.outlineText withLocation = String.join ((g.ways.map (g.line withLocation)).map (· ++ "\n"))) ∧
    (∀ key, g.Shows key ↔ ∃ root ∈ g.roots, g.Reaches root key) ∧
    ((∀ key ∈ g.keys, g.Shows key) ↔ (∀ key ∈ g.keys, g.IsImported key) ∨
      ∀ key ∈ g.keys, ∃ root ∈ g.keys, ¬g.IsImported root ∧ g.Reaches root key) ∧
    (g.Acyclic → ∀ key ∈ g.keys, g.Shows key) := by
  have shown (key : String) (way : ∃ root ∈ g.keys, ¬g.IsImported root ∧ g.Reaches root key) : g.Shows key := by
    obtain ⟨root, isKey, notImported, reaches⟩ := way
    exact shows_iff.mpr ⟨root, mem_roots_iff.mpr ⟨isKey, Or.inl notImported⟩, reaches⟩
  refine ⟨g.outlineText_eq, fun key => shows_iff, ⟨fun all => ?_, ?_⟩, fun acyclic key known =>
    shown key (exists_reaches_of_acyclic acyclic known)⟩
  · refine or_iff_not_imp_left.mpr fun someNot key known => ?_
    obtain ⟨root, isRoot, way⟩ := shows_iff.mp (all key known)
    obtain ⟨isKey, top⟩ := mem_roots_iff.mp isRoot
    exact ⟨root, isKey, top.resolve_right someNot, way⟩
  · rintro (allImported | reached) key known
    · exact shows_iff.mpr ⟨key, mem_roots_iff.mpr ⟨known, Or.inr allImported⟩, Relation.ReflTransGen.refl⟩
    · exact shown key (reached key known)

/-- A module that imports itself beside one that imports nothing. -/
def selfImport : Graph :=
  [("a.js", ["./a"]), ("b.js", [])].foldl (fun g m => g.insert ⟨.ofRelativePath m.1 m.1 m.1, m.2, ""⟩) .empty

/-- No other module imports the first one, and the tree leaves it out. -/
theorem not_shows_self_importing : "a.js" ∈ selfImport.keys ∧
    (∀ other, "a.js" ∈ selfImport.edges other → other = "a.js") ∧
    selfImport.outlineText false = "b.js\n" ∧ ¬selfImport.Shows "a.js" := by
  have keys : selfImport.keys = ["a.js", "b.js"] := by decide
  have roots : selfImport.roots = ["b.js"] := by decide
  have leaf : selfImport.edges "b.js" = [] := by decide
  refine ⟨by rw [keys]; exact List.mem_cons_self, fun other edge => ?_, ?_, fun shown => ?_⟩
  · have known := mem_keys_of_edge edge
    rw [keys, List.mem_pair] at known
    rcases known with rfl | rfl
    · rfl
    · rw [leaf] at edge
      cases edge
  · rw [outlineText_eq, ways, roots, List.flatMap_singleton, waysFrom, leaf, outline]
    decide
  · obtain ⟨root, isRoot, way⟩ := shows_iff.mp shown
    rw [roots, List.mem_singleton] at isRoot
    subst isRoot
    rcases way.cases_head with same | ⟨next, edge, _⟩
    · exact absurd same (by decide)
    · rw [leaf] at edge
      cases edge

end ModuleBundler.Graph
