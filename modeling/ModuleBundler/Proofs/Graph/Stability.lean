import ModuleBundler.Proofs.Graph.Descent
import ModuleBundler.Proofs.Graph.Insertion

namespace ModuleBundler

variable {α : Type} [BEq α] [LawfulBEq α]

/-- What is found first does not depend on what is repeated. -/
theorem find?_eraseDups (p : α → Bool) : (l : List α) → l.eraseDups.find? p = l.find? p
  | [] => rfl
  | a :: l => by
    rw [List.eraseDups_cons]
    by_cases holds : p a
    · rw [List.find?_cons_of_pos holds, List.find?_cons_of_pos holds]
    · rw [List.find?_cons_of_neg holds, List.find?_cons_of_neg holds, find?_eraseDups p, List.find?_filter]
      refine congrArg (List.find? · l) (funext fun b => ?_)
      by_cases same : b = a
      · subst same
        simp [holds]
      · simp [same]
termination_by l => l.length
decreasing_by
  exact Nat.lt_succ_of_le (List.length_filter_le _ _)

/-- A repetition goes wherever it stands. -/
theorem eraseDups_append_cons {front : List α} {a : α} (again : a ∈ front) (back : List α) :
    (front ++ a :: back).eraseDups = (front ++ back).eraseDups := by
  rw [List.eraseDups_append, List.eraseDups_append, List.removeAll, List.removeAll,
    List.filter_cons_of_neg (by simpa using again)]

namespace Graph

variable {g h : Graph} {key : String} {node : ModuleNode} {front back : List String} {specifier : String}

/-- The edges of a module without those that lead back to it, and each but once. -/
def properEdges (g : Graph) (key : String) : List String := ((g.edges key).filter (· ≠ key)).eraseDups

theorem find?_properEdges (g : Graph) (s : Traversal) (key : String) :
    (g.properEdges key).find? (s.enter key).isNew = (g.edges key).find? (s.enter key).isNew := by
  rw [properEdges, find?_eraseDups, List.find?_filter]
  refine congrArg (List.find? · _) (funext fun other => ?_)
  by_cases same : other = key
  · subst same
    simp [Traversal.isNew, Traversal.enter]
  · simp [same]

theorem order_congr_of_properEdges (keys : g.keys = h.keys)
    (edges : ∀ key ∈ g.keys, g.properEdges key = h.properEdges key) :
    g.order = h.order := by
  refine order_congr_of_sameFirstEdges keys fun s key => ?_
  by_cases known : key ∈ g.keys
  · rw [← find?_properEdges, edges key known, find?_properEdges]
  · have none (g : Graph) (unknown : key ∉ g.keys) : g.edges key = [] :=
      List.eq_nil_iff_forall_not_mem.mpr fun _ edge => unknown (mem_keys_of_edge edge)
    rw [none g known, none h (keys ▸ known)]

/-- Whether an import makes no difference behind some other imports of a module: it leads to no module, or back to
the module, or where one of the others leads. -/
def IsIdle (g : Graph) (key : String) (front : List String) (specifier : String) : Prop :=
  ∀ other, g.resolve? specifier = some other → other = key ∨ other ∈ front.filterMap g.resolve?

theorem filter_edges_of_isIdle (idle : g.IsIdle key front specifier) (back : List String) :
    (((front ++ specifier :: back).filterMap g.resolve?).filter (· ≠ key)).eraseDups =
      (((front ++ back).filterMap g.resolve?).filter (· ≠ key)).eraseDups := by
  rw [List.filterMap_append, List.filterMap_append]
  cases leads : g.resolve? specifier with
  | none => rw [List.filterMap_cons_none leads]
  | some other =>
    rw [List.filterMap_cons_some leads, List.filter_append, List.filter_append]
    by_cases same : other = key
    · rw [List.filter_cons_of_neg (by simpa using same)]
    · rw [List.filter_cons_of_pos (by simpa using same), eraseDups_append_cons]
      exact List.mem_filter.mpr ⟨(idle other leads).resolve_left same, by simpa using same⟩

theorem properEdges_insert_of_isIdle (member : node ∈ g.nodes.toList) (imports : node.imports = front ++ back)
    (idle : g.IsIdle node.key front specifier) (key : String) :
    (g.insert { node with imports := front ++ specifier :: back }).properEdges key = g.properEdges key := by
  have known : node.key ∈ g.keys := List.mem_map_of_mem member
  rw [properEdges, edges_insert_of_mem { node with imports := front ++ specifier :: back } known, properEdges]
  split
  · next same =>
    have same : key = node.key := same
    have edges : g.edges key = (front ++ back).filterMap g.resolve? := by
      rw [same, Graph.edges, importsOf_of_mem member, imports]
    rw [edges, same]
    exact filter_edges_of_isIdle idle back
  · rfl

/-- The order depends on the modules and their proper edges alone. So an import that is written again, that leads
back to its own module or that leads to no module makes no difference, whatever cycles there are. -/
theorem order_by_properEdges :
    (∀ g h : Graph, g.keys = h.keys → (∀ key ∈ g.keys, g.properEdges key = h.properEdges key) → g.order = h.order) ∧
    ∀ (g : Graph) (node : ModuleNode) (front back : List String) (specifier : String), node ∈ g.nodes.toList →
      node.imports = front ++ back → g.IsIdle node.key front specifier →
      (g.insert { node with imports := front ++ specifier :: back }).order = g.order := by
  refine ⟨fun g h keys edges => order_congr_of_properEdges keys edges,
    fun g node front back specifier member imports idle => ?_⟩
  refine order_congr_of_properEdges ?_ fun key _ => properEdges_insert_of_isIdle member imports idle key
  rw [keys_insert]
  exact if_pos (List.mem_map_of_mem member)

/-- The modules of `smallCycle` with imports that make no difference. -/
def smallCycleAgain : Graph :=
  [("a", ["./a", "./b", "./missing"]), ("b", ["./a", "./c", "./a", "./b", "../c"]), ("c", ["./c"])].foldl
    (fun g m => g.insert ⟨.ofRelativePath m.1 m.1 m.1, m.2, ""⟩) .empty

theorem order_by_properEdges_of_smallCycle : smallCycle.keys = smallCycleAgain.keys ∧
    (∀ key ∈ smallCycle.keys, smallCycle.properEdges key = smallCycleAgain.properEdges key) ∧
    smallCycle.edges "b" ≠ smallCycleAgain.edges "b" ∧ smallCycle.order = smallCycleAgain.order ∧
    (smallCycle.insert ⟨.ofRelativePath "b" "b" "b", ["./a", "./c", "lib/a"], ""⟩).order = smallCycle.order := by
  have keys : smallCycle.keys = smallCycleAgain.keys := by decide
  have edges : ∀ key ∈ smallCycle.keys, smallCycle.properEdges key = smallCycleAgain.properEdges key := by decide
  have idle : smallCycle.IsIdle "b" ["./a", "./c"] "lib/a" := by
    intro other leads
    have first : smallCycle.resolve? "lib/a" = some "a" := by decide
    cases first.symm.trans leads
    decide
  exact ⟨keys, edges, by decide, order_by_properEdges.1 _ _ keys edges,
    order_by_properEdges.2 smallCycle ⟨.ofRelativePath "b" "b" "b", ["./a", "./c"], ""⟩ _ [] "lib/a"
      (by decide) rfl idle⟩

/-- In a list without repetitions, what stands behind an element is what comes after it. -/
theorem pair_sublist_iff {a b : String} (distinct : (front ++ a :: back).Nodup) :
    [a, b].Sublist (front ++ a :: back) ↔ b ∈ back := by
  induction front with
  | nil =>
    rw [List.nil_append, List.cons_sublist_cons, List.singleton_sublist]
  | cons first front ih =>
    obtain ⟨new, distinct⟩ := List.nodup_cons.mp distinct
    have other : a ≠ first := fun same => new (same ▸ List.mem_append_right _ List.mem_cons_self)
    rw [← ih distinct, List.cons_append, List.sublist_cons_iff]
    refine or_iff_left ?_
    rintro ⟨_, eq, _⟩
    exact other (List.cons.inj eq).1

/-- Behind the modules before it, a module comes next exactly if no edge leads from it to one that comes after it. -/
theorem descends_in_place_iff (keys : g.keys = front ++ key :: back) :
    (∃ first, g.keys.find? (Traversal.mk front ∅).isNew = some first ∧ g.Descends ⟨front, ∅⟩ first key) ↔
      ∀ other ∈ g.edges key, other ∉ back := by
  have distinct : (front ++ key :: back).Nodup := keys ▸ g.nodes.keys_nodup
  obtain ⟨_, distinctBack, apart⟩ := List.nodup_append.mp distinct
  have new : key ∉ front := fun old => apart key old key List.mem_cons_self rfl
  have found : g.keys.find? (Traversal.mk front ∅).isNew = some key := by
    have old : front.find? (Traversal.mk front ∅).isNew = none := by simp [Traversal.isNew]
    rw [keys, List.find?_append, old, Option.none_or, List.find?_cons_of_pos (by simpa [Traversal.isNew] using new)]
  simp only [found, Option.some.injEq, exists_eq_left', descends_self_iff]
  refine forall₂_congr fun other edge => ?_
  have known : other ∈ front ++ key :: back := keys ▸ mem_keys_of_mem_edges edge
  simp only [Traversal.enter, Finset.mem_insert, Finset.notMem_empty, or_false]
  constructor
  · rintro (rfl | before) after
    · exact (List.nodup_cons.mp distinctBack).1 after
    · exact apart other before other (List.mem_cons_of_mem _ after) rfl
  · intro notAfter
    rcases List.mem_append.mp known with before | later
    · exact Or.inr before
    · exact Or.inl ((List.mem_cons.mp later).resolve_right notAfter)

/-- The modules are listed in the order of the graph exactly if no module has an edge to one that comes after it. -/
theorem order_eq_keys_iff (g : Graph) : g.order = g.keys ↔ ∀ key other, other ∈ g.edges key →
    ¬[key, other].Sublist g.keys := by
  rw [order_eq_iff (List.Perm.refl _)]
  constructor
  · intro each key other edge forward
    obtain ⟨front, back, keys⟩ := List.append_of_mem (mem_keys_of_edge edge)
    have notAfter := (descends_in_place_iff keys).mp (each front key back keys) other edge
    rw [keys] at forward
    exact notAfter ((pair_sublist_iff (keys ▸ g.nodes.keys_nodup)).mp forward)
  · intro noForward front key back keys
    refine (descends_in_place_iff keys).mpr fun other edge after => noForward key other edge ?_
    rw [keys]
    exact (pair_sublist_iff (keys ▸ g.nodes.keys_nodup)).mpr after

end Graph

end ModuleBundler
