import Mathlib.Data.Finset.Basic
import Mathlib.Logic.Relation
import ModuleBundler.Graph.Order

/-!
Traversals of a graph as a relation between states.

`Graph.Traverses` says what a depth first traversal does to the modules that it has resolved and to those
that it is visiting. A derivation is finite, so a traversal that has one comes to an end. What every
traversal preserves is proved by induction on derivations, and `Graph.traverses_walk` finds the walk of
the library among them.
-/

namespace ModuleBundler

/-- What a traversal knows at a time. -/
structure Traversal where
  /-- The modules that have been left, in order. -/
  resolved : List String
  /-- The modules that have been entered and not left. -/
  visiting : Finset String

namespace Traversal

def start : Traversal := ⟨[], ∅⟩

def enter (s : Traversal) (key : String) : Traversal := { s with visiting := insert key s.visiting }

def leave (s : Traversal) (key : String) : Traversal where
  resolved := if key ∈ s.resolved then s.resolved else s.resolved ++ [key]
  visiting := s.visiting.erase key

theorem mem_leave {s : Traversal} {key k : String} : k ∈ (s.leave key).resolved ↔ k ∈ s.resolved ∨ k = key := by
  unfold leave
  split
  · next present =>
    constructor
    · exact Or.inl
    · rintro (old | rfl)
      · exact old
      · exact present
  · simp

theorem resolved_leave {s : Traversal} {key : String} (new : key ∉ s.resolved) :
    (s.leave key).resolved = s.resolved ++ [key] := by
  unfold leave
  exact if_neg new

theorem prefix_leave (s : Traversal) (key : String) : s.resolved <+: (s.leave key).resolved := by
  unfold leave
  split
  · exact List.prefix_refl _
  · exact List.prefix_append _ _

end Traversal

namespace Graph

/-- There is a way from the first module to the second along edges, perhaps an empty one. -/
def Reaches (g : Graph) : String → String → Prop := Relation.ReflTransGen fun u v => v ∈ g.edges u

/-- The traversal from the modules of a list, one after the other, leads from the first state to the
second. -/
inductive Traverses (g : Graph) : Traversal → List String → Traversal → Prop
  | done {s} : Traverses g s [] s
  | cycle {s t key keys} :
      key ∈ s.visiting → Traverses g s keys t → Traverses g s (key :: keys) t
  | skip {s t key keys} :
      key ∉ s.visiting → key ∈ s.resolved ∨ key ∉ g.keys → Traverses g s keys t → Traverses g s (key :: keys) t
  | visit {s inner t key keys} :
      key ∉ s.visiting → key ∉ s.resolved → key ∈ g.keys →
      Traverses g (s.enter key) (g.edges key) inner → Traverses g (inner.leave key) keys t →
      Traverses g s (key :: keys) t

theorem mem_keys_of_mem_edges {g : Graph} {u v : String} (edge : v ∈ g.edges u) : v ∈ g.keys := by
  obtain ⟨specifier, _, found⟩ := List.mem_filterMap.mp edge
  exact List.mem_of_find?_eq_some found

/-- Only modules of the graph have edges. -/
theorem mem_keys_of_edge {g : Graph} {u v : String} (edge : v ∈ g.edges u) : u ∈ g.keys := by
  by_contra unknown
  have absent : g.get? u = none := by
    refine List.find?_eq_none.mpr fun node member same => unknown ?_
    exact List.mem_map.mpr ⟨node, member, by simpa using same⟩
  simp [edges, importsOf, absent] at edge

namespace Traverses

variable {g : Graph} {s t u : Traversal} {keys : List String}

/-- The state at the end is determined. -/
theorem unique (run : g.Traverses s keys t) : ∀ {u}, g.Traverses s keys u → t = u := by
  induction run with
  | done =>
    intro u other
    cases other
    rfl
  | cycle on _ ih =>
    intro u other
    cases other with
    | cycle _ rest => exact ih rest
    | skip off => exact absurd on off
    | visit off => exact absurd on off
  | skip off known _ ih =>
    intro u other
    cases other with
    | cycle on => exact absurd on off
    | skip _ _ rest => exact ih rest
    | visit _ new member =>
      rcases known with old | unknown
      · exact absurd old new
      · exact absurd member unknown
  | visit off new member _ _ ihInner ihRest =>
    intro u other
    cases other with
    | cycle on => exact absurd on off
    | skip _ known =>
      rcases known with old | unknown
      · exact absurd old new
      · exact absurd member unknown
    | visit _ _ _ inner rest =>
      cases ihInner inner
      exact ihRest rest

/-- Each visit gives back the set of modules on the path as it was. -/
theorem visiting_eq (run : g.Traverses s keys t) : t.visiting = s.visiting := by
  induction run with
  | done => rfl
  | cycle _ _ ih => exact ih
  | skip _ _ _ ih => exact ih
  | visit off _ _ _ _ ihInner ihRest =>
    rw [ihRest, Traversal.leave, ihInner, Traversal.enter, Finset.erase_insert off]

/-- After a visit the same modules are on the path as before it. -/
theorem visiting_leave {key : String} (off : key ∉ s.visiting) (run : g.Traverses (s.enter key) keys t) :
    (t.leave key).visiting = s.visiting := by
  rw [Traversal.leave, run.visiting_eq, Traversal.enter, Finset.erase_insert off]

theorem resolved_prefix (run : g.Traverses s keys t) : s.resolved <+: t.resolved := by
  induction run with
  | done => exact List.prefix_refl _
  | cycle _ _ ih => exact ih
  | skip _ _ _ ih => exact ih
  | visit _ _ _ _ _ ihInner ihRest =>
    exact ihInner.trans ((Traversal.prefix_leave _ _).trans ihRest)

/-- A module on the path is not resolved before it is left. -/
theorem not_visiting (run : g.Traverses s keys t) {k : String} (member : k ∈ t.resolved) :
    k ∈ s.resolved ∨ k ∉ s.visiting := by
  induction run with
  | done => exact Or.inl member
  | cycle _ _ ih => exact ih member
  | skip _ _ _ ih => exact ih member
  | @visit s inner t key keys off new _ before _ ihInner ihRest =>
    rcases ihRest member with left | away
    · rcases Traversal.mem_leave.mp left with early | rfl
      · rcases ihInner early with old | away
        · exact Or.inl old
        · exact Or.inr fun on => away (Finset.mem_insert_of_mem on)
      · exact Or.inr off
    · exact Or.inr (before.visiting_leave off ▸ away)

/-- A module is not resolved by the visits of what it imports. -/
theorem not_resolved_inside {key : String} (new : key ∉ s.resolved) (run : g.Traverses (s.enter key) keys t) :
    key ∉ t.resolved := by
  intro member
  rcases run.not_visiting member with old | away
  · exact new old
  · exact away (Finset.mem_insert_self _ _)

theorem resolved_nodup (run : g.Traverses s keys t) (start : s.resolved.Nodup) : t.resolved.Nodup := by
  induction run with
  | done => exact start
  | cycle _ _ ih => exact ih start
  | skip _ _ _ ih => exact ih start
  | @visit s inner t key keys _ new _ before _ ihInner ihRest =>
    have absent := before.not_resolved_inside new
    refine ihRest ?_
    rw [Traversal.resolved_leave absent]
    exact (ihInner start).append (List.nodup_singleton key) (by simpa using absent)

/-- Whatever has been resolved can be reached from where the traversal began. -/
theorem reached (run : g.Traverses s keys t) {k : String} (member : k ∈ t.resolved) :
    k ∈ s.resolved ∨ k ∈ g.keys ∧ ∃ root ∈ keys, g.Reaches root k := by
  induction run with
  | done => exact Or.inl member
  | cycle _ _ ih | skip _ _ _ ih =>
    rcases ih member with old | ⟨known, root, inRest, way⟩
    · exact Or.inl old
    · exact Or.inr ⟨known, root, List.mem_cons_of_mem _ inRest, way⟩
  | @visit s inner t key keys _ _ known _ _ ihInner ihRest =>
    rcases ihRest member with left | ⟨found, root, inRest, way⟩
    · rcases Traversal.mem_leave.mp left with early | rfl
      · rcases ihInner early with old | ⟨found, next, edge, way⟩
        · exact Or.inl old
        · exact Or.inr ⟨found, key, List.mem_cons_self, Relation.ReflTransGen.head edge way⟩
      · exact Or.inr ⟨known, k, List.mem_cons_self, Relation.ReflTransGen.refl⟩
    · exact Or.inr ⟨found, root, List.mem_cons_of_mem _ inRest, way⟩

/-- The modules that a traversal begins with are resolved at its end, unless they are on the path. -/
theorem visited (run : g.Traverses s keys t) {k : String} (member : k ∈ keys) (known : k ∈ g.keys) :
    k ∈ s.visiting ∨ k ∈ t.resolved := by
  induction run with
  | done => simp at member
  | cycle on _ ih =>
    rcases List.mem_cons.mp member with rfl | inRest
    · exact Or.inl on
    · exact ih inRest
  | skip _ settled rest ih =>
    rcases List.mem_cons.mp member with rfl | inRest
    · rcases settled with old | unknown
      · exact Or.inr (rest.resolved_prefix.subset old)
      · exact absurd known unknown
    · exact ih inRest
  | @visit s inner t key keys off _ _ before after _ ihRest =>
    rcases List.mem_cons.mp member with rfl | inRest
    · exact Or.inr (after.resolved_prefix.subset (Traversal.mem_leave.mpr (Or.inr rfl)))
    · exact before.visiting_leave off ▸ ihRest inRest

theorem append {l : List String} (first : g.Traverses s keys t) (second : g.Traverses t l u) :
    g.Traverses s (keys ++ l) u := by
  induction first with
  | done => exact second
  | cycle on _ ih => exact .cycle on (ih second)
  | skip off settled _ ih => exact .skip off settled (ih second)
  | visit off new known inner _ _ ih => exact .visit off new known inner (ih second)

/-- The visit of a new module ends with the module itself. -/
theorem ends_with {key : String} (run : g.Traverses s [key] t) (off : key ∉ s.visiting) (new : key ∉ s.resolved)
    (known : key ∈ g.keys) : ∃ block, t.resolved = s.resolved ++ block ++ [key] := by
  cases run with
  | cycle on => exact absurd on off
  | skip _ settled =>
    rcases settled with old | unknown
    · exact absurd old new
    · exact absurd known unknown
  | visit _ _ _ before after =>
    cases after
    obtain ⟨block, grown⟩ := before.resolved_prefix
    refine ⟨block, ?_⟩
    rw [Traversal.resolved_leave (before.not_resolved_inside new), ← grown]
    rfl

/-- Nothing happens at a module that is resolved already. -/
theorem stays {key : String} (run : g.Traverses s [key] t) (old : key ∈ s.resolved) : t = s := by
  cases run with
  | cycle _ rest =>
    cases rest
    rfl
  | skip _ _ rest =>
    cases rest
    rfl
  | visit _ new => exact absurd old new

/-- What a resolved module imports is resolved as well, or on the path. -/
def Closed (g : Graph) (s : Traversal) : Prop :=
  ∀ u ∈ s.resolved, ∀ v ∈ g.edges u, v ∈ s.visiting ∨ v ∈ s.resolved

theorem closed (run : g.Traverses s keys t) (start : Closed g s) : Closed g t := by
  induction run with
  | done => exact start
  | cycle _ _ ih => exact ih start
  | skip _ _ _ ih => exact ih start
  | @visit s inner t key keys off new _ before _ ihInner ihRest =>
    have entered : Closed g (s.enter key) := fun u member v edge =>
      (start u member v edge).imp_left Finset.mem_insert_of_mem
    refine ihRest fun u member v edge => ?_
    -- Whatever an edge leads to after the inner visits, leaving `key` takes it from the path to the resolved.
    have moved (found : v ∈ inner.visiting ∨ v ∈ inner.resolved) :
        v ∈ (inner.leave key).visiting ∨ v ∈ (inner.leave key).resolved := by
      rcases found with on | early
      · rcases eq_or_ne v key with rfl | other
        · exact Or.inr (Traversal.mem_leave.mpr (Or.inr rfl))
        · exact Or.inl (Finset.mem_erase_of_ne_of_mem other on)
      · exact Or.inr (Traversal.mem_leave.mpr (Or.inl early))
    rcases Traversal.mem_leave.mp member with early | rfl
    · exact moved (ihInner entered u early v edge)
    · have found := before.visited edge (mem_keys_of_mem_edges edge)
      exact moved (found.imp_left fun on => before.visiting_eq.symm ▸ on)

/-- Each resolved module stands behind what it imports, unless that leads back to it. -/
def Ordered (g : Graph) (s : Traversal) : Prop :=
  ∀ front u, front ++ [u] <+: s.resolved → ∀ v ∈ g.edges u, v ∈ front ∨ g.Reaches v u

/-- The modules on the path lead to every module that a traversal visits, so an edge back to one of them
lies on a cycle. -/
theorem ordered (run : g.Traverses s keys t) (start : Ordered g s)
    (path : ∀ p ∈ s.visiting, ∀ k ∈ keys, g.Reaches p k) : Ordered g t := by
  induction run with
  | done => exact start
  | cycle _ _ ih => exact ih start fun p on k member => path p on k (List.mem_cons_of_mem _ member)
  | skip _ _ _ ih => exact ih start fun p on k member => path p on k (List.mem_cons_of_mem _ member)
  | @visit s inner t key keys off new _ before _ ihInner ihRest =>
    have toKey : ∀ p ∈ (s.enter key).visiting, g.Reaches p key := fun p on => by
      rcases Finset.mem_insert.mp on with rfl | old
      · exact Relation.ReflTransGen.refl
      · exact path p old key List.mem_cons_self
    have inside := ihInner start fun p on k edge => (toKey p on).tail edge
    have absent := before.not_resolved_inside new
    refine ihRest (fun front u leads v edge => ?_) fun p on k member => ?_
    · rw [Traversal.resolved_leave absent] at leads
      rcases List.prefix_concat_iff.mp leads with whole | early
      · obtain ⟨rfl, last⟩ := List.append_inj' whole rfl
        cases last
        rcases before.visited edge (mem_keys_of_mem_edges edge) with on | early
        · exact Or.inr (toKey v on)
        · exact Or.inl early
      · exact inside front u early v edge
    · rw [before.visiting_leave off] at on
      exact path p on k (List.mem_cons_of_mem _ member)

end Traverses

/-- The modules that are left on a walk through a list, in order. -/
def passed (g : Graph) (path done keys : List String) : List String :=
  (g.walk path done keys).filterMap Visit.left?

/-- The walk is a traversal. -/
theorem traverses_walk (g : Graph) (path done keys : List String) :
    g.Traverses ⟨done, path.toFinset⟩ keys ⟨done ++ g.passed path done keys, path.toFinset⟩ := by
  unfold passed
  induction path, done, keys using walk.induct g with
  | case1 path done =>
    rw [walk, List.filterMap_nil, List.append_nil]
    exact .done
  | case2 path done key keys on ih =>
    rw [walk, dif_pos on]
    exact .cycle (List.mem_toFinset.mpr on) ih
  | case3 path done key keys off known old ih =>
    rw [walk, dif_neg off, dif_pos known, if_pos old]
    exact .skip (by simpa using off) (Or.inl old) ih
  | case4 path done key keys off known new visits ihInner ihRest =>
    rw [walk, dif_neg off, dif_pos known, if_neg new]
    have away : key ∉ path.toFinset := by simpa using off
    have inner : g.Traverses (Traversal.enter ⟨done, path.toFinset⟩ key) (g.edges key)
        ⟨done ++ (g.walk (key :: path) done (g.edges key)).filterMap Visit.left?, (key :: path).toFinset⟩ := by
      simpa only [Traversal.enter, List.toFinset_cons] using ihInner
    have left : Traversal.leave
        ⟨done ++ (g.walk (key :: path) done (g.edges key)).filterMap Visit.left?, (key :: path).toFinset⟩ key =
        ⟨done ++ visits.filterMap Visit.left?, path.toFinset⟩ := by
      have absent := inner.not_resolved_inside new
      rw [Traversal.leave, if_neg absent, List.toFinset_cons, Finset.erase_insert away]
      simp [visits, List.filterMap_cons, Visit.left?]
    rw [List.filterMap_append, ← List.append_assoc]
    exact .visit away new known inner (left ▸ ihRest)
  | case5 path done key keys off unknown ih =>
    rw [walk, dif_neg off, dif_neg unknown]
    exact .skip (by simpa using off) (Or.inr unknown) ih

end Graph

end ModuleBundler
