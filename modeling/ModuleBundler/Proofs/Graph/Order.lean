import ModuleBundler.Proofs.Graph.Traversal

namespace ModuleBundler.Graph

variable {g : Graph}

/-- The modules that are resolved when the first `count` modules have been visited. -/
def emitted (g : Graph) (count : Nat) : List String := g.passed [] [] (g.keys.take count)

theorem traverses_emitted (g : Graph) (count : Nat) :
    g.Traverses .start (g.keys.take count) ⟨g.emitted count, ∅⟩ :=
  g.traverses_walk [] [] (g.keys.take count)

theorem order_eq_emitted (g : Graph) : g.order = g.emitted g.keys.length := by
  rw [emitted, List.take_length]
  rfl

theorem emitted_nodup (g : Graph) (count : Nat) : (g.emitted count).Nodup :=
  (g.traverses_emitted count).resolved_nodup List.nodup_nil

/-- At the top level nothing is on the path, so all that can be reached has been resolved. -/
theorem mem_emitted_iff {count : Nat} {k : String} :
    k ∈ g.emitted count ↔ ∃ root ∈ g.keys.take count, g.Reaches root k := by
  have run := g.traverses_emitted count
  constructor
  · intro member
    rcases run.reached member with old | ⟨_, root, inFront, way⟩
    · exact absurd old List.not_mem_nil
    · exact ⟨root, inFront, way⟩
  · rintro ⟨root, inFront, way⟩
    have closed := run.closed fun u old => absurd old List.not_mem_nil
    induction way with
    | refl =>
      rcases run.visited inFront (List.mem_of_mem_take inFront) with on | found
      · exact absurd on (Finset.notMem_empty _)
      · exact found
    | tail _ edge ih =>
      rcases closed _ ih _ edge with on | found
      · exact absurd on (Finset.notMem_empty _)
      · exact found

theorem Reaches.mem_keys {u v : String} (way : g.Reaches u v) (known : u ∈ g.keys) : v ∈ g.keys := by
  induction way with
  | refl => exact known
  | tail _ edge _ => exact mem_keys_of_mem_edges edge

theorem mem_order_iff {k : String} : k ∈ g.order ↔ k ∈ g.keys := by
  rw [order_eq_emitted, mem_emitted_iff, List.take_length]
  constructor
  · rintro ⟨root, known, way⟩
    exact way.mem_keys known
  · intro known
    exact ⟨k, known, Relation.ReflTransGen.refl⟩

theorem order_perm_keys (g : Graph) : g.order.Perm g.keys := by
  refine (List.perm_ext_iff_of_nodup ?_ g.nodes.keys_nodup).mpr fun k => mem_order_iff
  rw [order_eq_emitted]
  exact g.emitted_nodup _

/-- The visit of one more module goes on from what is resolved already. -/
theorem traverses_next {count : Nat} (within : count < g.keys.length) :
    g.Traverses ⟨g.emitted count, ∅⟩ [g.keys[count]] ⟨g.emitted (count + 1), ∅⟩ := by
  have next := g.traverses_walk [] (g.emitted count) [g.keys[count]]
  have both := (g.traverses_emitted count).append next
  rw [List.take_append_getElem within] at both
  rw [← both.unique (g.traverses_emitted (count + 1))]
  exact next

theorem get?_key {k : String} {node : ModuleNode} (found : g.get? k = some node) : node.key = k := by
  simpa using List.find?_some found

theorem exists_get? {k : String} (known : k ∈ g.keys) : ∃ node, g.get? k = some node := by
  obtain ⟨node, member, same⟩ := List.mem_map.mp known
  refine Option.isSome_iff_exists.mp (List.find?_isSome.mpr ⟨node, member, ?_⟩)
  simpa using same

/-- The modules that go into a bundle have the keys of the order. -/
theorem map_key_ordered (g : Graph) : g.ordered.value.map ModuleNode.key = g.order := by
  have known : ∀ k ∈ g.order, k ∈ g.keys := fun k => mem_order_iff.mp
  unfold ordered
  generalize g.order = order at known
  induction order with
  | nil => rfl
  | cons k rest ih =>
    obtain ⟨node, found⟩ := exists_get? (known k List.mem_cons_self)
    rw [List.filterMap_cons_some found, List.map_cons, get?_key found,
      ih fun k member => known k (List.mem_cons_of_mem _ member)]

/-- Two elements of a list without repetitions stand in one order only. -/
theorem not_sublist_swap {l : List String} (distinct : l.Nodup) {a b : String} (forward : [a, b].Sublist l) :
    ¬[b, a].Sublist l := by
  induction l with
  | nil => cases forward
  | cons k rest ih =>
    obtain ⟨new, distinct⟩ := List.nodup_cons.mp distinct
    intro backward
    cases forward with
    | cons _ inRest =>
      cases backward with
      | cons _ inRest' => exact ih distinct inRest inRest'
      | cons_cons _ _ => exact new (inRest.subset (by simp))
    | cons_cons _ second =>
      cases backward with
      | cons _ inRest => exact new (inRest.subset (by simp))
      | cons_cons _ _ => exact new (List.singleton_sublist.mp second)

/-- No module leads back to one that imports it. -/
def Acyclic (g : Graph) : Prop := ∀ u v, v ∈ g.edges u → ¬g.Reaches v u

/-- A module stands behind what it imports, unless what it imports leads back to it. So the order of a
graph without cycles is a topological one, and only an edge on a cycle points forward. -/
theorem imported_stands_before {u v : String} (edge : v ∈ g.edges u) :
    ([v, u].Sublist g.order ∨ g.Reaches v u) ∧ (g.Acyclic → [v, u].Sublist g.order) ∧
      ([u, v].Sublist g.order → g.Reaches v u) := by
  have run := g.traverses_walk [] [] g.keys
  have ordered := run.ordered (fun front w leads => by simp at leads) fun p on => by simp at on
  obtain ⟨front, back, split⟩ := List.append_of_mem (mem_order_iff.mpr (mem_keys_of_edge edge))
  have leads : front ++ [u] <+: g.order := ⟨back, by rw [split, List.append_assoc]; rfl⟩
  have first : [v, u].Sublist g.order ∨ g.Reaches v u := by
    rcases ordered front u leads v edge with before | way
    · refine Or.inl ?_
      rw [split]
      exact (List.singleton_sublist.mpr before).append (List.singleton_sublist.mpr List.mem_cons_self)
    · exact Or.inr way
  refine ⟨first, fun acyclic => first.resolve_right (acyclic u v edge), fun forward => ?_⟩
  rcases first with before | way
  · have distinct : g.order.Nodup := g.order_eq_emitted ▸ g.emitted_nodup g.keys.length
    exact absurd forward (not_sublist_swap distinct before)
  · exact way

/-- Two modules that import each other, and a third one. -/
def smallCycle : Graph :=
  [("a", ["./b"]), ("b", ["./a", "./c"]), ("c", [])].foldl
    (fun g m => g.insert ⟨.ofRelativePath m.1 m.1 m.1, m.2, ""⟩) .empty

theorem imported_stands_before_in_smallCycle :
    "c" ∈ smallCycle.edges "b" ∧ (["c", "b"].Sublist smallCycle.order ∨ smallCycle.Reaches "c" "b") ∧
      (smallCycle.Acyclic → ["c", "b"].Sublist smallCycle.order) ∧
      (["b", "c"].Sublist smallCycle.order → smallCycle.Reaches "c" "b") :=
  ⟨by decide, imported_stands_before (by decide)⟩

/-- Nothing is lost and nothing doubled. The visits of the first modules always come to an end, with nothing
left on the path, and what they have resolved then is what can be reached from these modules. Each module
is the last one of the block that its visit adds, if it adds one. -/
theorem order_by_blocks (g : Graph) :
    (∀ count t, g.Traverses .start (g.keys.take count) t ↔ t = ⟨g.emitted count, ∅⟩) ∧
      (∀ count, (g.emitted count).Nodup) ∧
      (∀ count k, k ∈ g.emitted count ↔ ∃ root ∈ g.keys.take count, g.Reaches root k) ∧
      (∀ i : Fin g.keys.length,
        g.keys[i] ∈ g.emitted i ∧ g.emitted (i + 1) = g.emitted i ∨
          ∃ block, g.emitted (i + 1) = g.emitted i ++ block ++ [g.keys[i]]) ∧
      g.order = g.emitted g.keys.length ∧ g.order.Perm g.keys ∧
      g.ordered.value.map ModuleNode.key = g.order := by
  refine ⟨fun count t => ⟨fun run => ?_, fun same => ?_⟩, g.emitted_nodup, fun _ _ => mem_emitted_iff,
    fun i => ?_, g.order_eq_emitted, g.order_perm_keys, g.map_key_ordered⟩
  · exact run.unique (g.traverses_emitted count)
  · exact same ▸ g.traverses_emitted count
  · have run := traverses_next i.isLt
    by_cases old : g.keys[i] ∈ g.emitted i
    · exact Or.inl ⟨old, congrArg Traversal.resolved (run.stays old)⟩
    · exact Or.inr (run.ends_with (Finset.notMem_empty _) old (List.getElem_mem i.isLt))

end ModuleBundler.Graph
