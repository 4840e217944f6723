import ModuleBundler.Proofs.Graph.Order

/-!
Which module is left next.

A traversal that is begun again with what it has left so far goes on as if it had not been stopped
(`Traverses.resume`). So the order of a graph is told module by module: behind those that have been left comes the
one where the way ends that goes from the first other module along the first edges to new modules
(`order_eq_iff`).
-/

namespace ModuleBundler

/-- Whether a module has been neither entered nor left. -/
def Traversal.isNew (s : Traversal) (key : String) : Bool := key ∉ s.visiting ∧ key ∉ s.resolved

theorem Traversal.isNew_iff {s : Traversal} {key : String} :
    s.isNew key = true ↔ key ∉ s.visiting ∧ key ∉ s.resolved := by
  simp [isNew]

namespace Graph

variable {g : Graph} {s t : Traversal} {keys front l : List String} {key last other : String}

/-- The way from a module along first edges to new modules ends at a module. -/
inductive Descends (g : Graph) : Traversal → String → String → Prop
  | stops {s : Traversal} {key : String} : (g.edges key).find? (s.enter key).isNew = none → Descends g s key key
  | goesOn {s : Traversal} {key next last : String} :
      (g.edges key).find? (s.enter key).isNew = some next → Descends g (s.enter key) next last → Descends g s key last

theorem Descends.unique (first : g.Descends s key last) (second : g.Descends s key other) : last = other := by
  induction first with
  | stops none =>
    cases second with
    | stops => rfl
    | goesOn next => cases none.symm.trans next
  | goesOn next _ ih =>
    cases second with
    | stops none => cases next.symm.trans none
    | goesOn next' rest =>
      cases next.symm.trans next'
      exact ih rest

/-- Whether the edges of two graphs lead to the same module first, whatever is new behind the
module that they lead from. -/
def SameFirstEdges (g h : Graph) : Prop :=
  ∀ (s : Traversal) (key : String), (g.edges key).find? (s.enter key).isNew = (h.edges key).find? (s.enter key).isNew

theorem Descends.congr {h : Graph} (same : g.SameFirstEdges h) (descends : g.Descends s key last) :
    h.Descends s key last := by
  induction descends with
  | stops none => exact .stops (same _ _ ▸ none)
  | goesOn next _ ih => exact .goesOn (same _ _ ▸ next) ih

/-- The way ends where it begins, or at a module that was new behind its beginning. -/
theorem Descends.not_visiting (descends : g.Descends s key last) : last = key ∨ last ∉ (s.enter key).visiting := by
  induction descends with
  | stops => exact Or.inl rfl
  | goesOn next _ ih =>
    refine Or.inr ?_
    rcases ih with rfl | new
    · exact (Traversal.isNew_iff.mp (List.find?_some next)).1
    · exact fun on => new (Finset.mem_insert_of_mem on)

/-- The way does not leave a module exactly if no edge leads from it to a new one. -/
theorem descends_self_iff : g.Descends s key key ↔
    ∀ other ∈ g.edges key, other ∈ (s.enter key).visiting ∨ other ∈ s.resolved := by
  have stops : (g.edges key).find? (s.enter key).isNew = none ↔
      ∀ other ∈ g.edges key, other ∈ (s.enter key).visiting ∨ other ∈ s.resolved := by
    simp only [List.find?_eq_none, Traversal.isNew_iff, not_and_or, not_not, Traversal.enter]
  rw [← stops]
  constructor
  · intro descends
    cases descends with
    | stops none => exact none
    | goesOn next onward =>
      rcases onward.not_visiting with rfl | new
      · exact absurd (Finset.mem_insert_self _ _) (Traversal.isNew_iff.mp (List.find?_some next)).1
      · exact absurd (Finset.mem_insert_of_mem (Finset.mem_insert_self key s.visiting)) new
  · exact .stops

namespace Traverses

/-- The module that a traversal leaves first is where the way ends from the first new module that it begins with. -/
theorem first_left (run : g.Traverses s keys t) (known : ∀ key ∈ keys, key ∈ g.keys) {rest : List String}
    (left : t.resolved = s.resolved ++ last :: rest) :
        ∃ first, keys.find? s.isNew = some first ∧ g.Descends s first last := by
  induction run generalizing rest with
  | done => simp at left
  | cycle on _ ih =>
    rw [List.find?_cons_of_neg (by simp [Traversal.isNew, on])]
    exact ih (fun key member => known key (List.mem_cons_of_mem _ member)) left
  | @skip s t key keys off settled _ ih =>
    rcases settled with old | unknown
    · rw [List.find?_cons_of_neg (by simp [Traversal.isNew, old])]
      exact ih (fun key member => known key (List.mem_cons_of_mem _ member)) left
    · exact absurd (known key List.mem_cons_self) unknown
  | @visit s inner t key keys off new _ before after ihInner _ =>
    rw [List.find?_cons_of_pos (by simp [Traversal.isNew, off, new])]
    refine ⟨key, rfl, ?_⟩
    obtain ⟨block, grown⟩ := before.resolved_prefix
    obtain ⟨more, later⟩ := after.resolved_prefix
    rw [Traversal.resolved_leave (before.not_resolved_inside new), ← grown, left] at later
    have eq : block ++ key :: more = last :: rest := by
      simpa [Traversal.enter, List.append_assoc] using later
    cases block with
    | nil =>
      obtain ⟨rfl, _⟩ := List.cons.inj eq
      rw [List.append_nil] at grown
      refine .stops (List.find?_eq_none.mpr fun next edge => ?_)
      rcases before.visited edge (mem_keys_of_mem_edges edge) with on | found
      · simp [Traversal.isNew, on]
      · rw [← grown] at found
        simp [Traversal.isNew, found]
    | cons first block =>
      obtain ⟨rfl, _⟩ := List.cons.inj eq
      obtain ⟨next, found, onward⟩ := ihInner (fun next edge => mem_keys_of_mem_edges edge) grown.symm
      exact .goesOn found onward

/-- A traversal goes on in the same way if it is begun again with what it has left so far. -/
theorem resume (run : g.Traverses s keys t) {back : List String} (left : t.resolved = s.resolved ++ front ++ back) :
    g.Traverses ⟨s.resolved ++ front, s.visiting⟩ keys t := by
  induction run generalizing front back with
  | @done s =>
    have none : front = [] ∧ back = [] := by simpa [List.append_assoc] using left
    rw [none.1, List.append_nil]
    exact .done
  | cycle on _ ih => exact .cycle on (ih left)
  | skip off settled _ ih => exact .skip off (settled.imp_left (List.mem_append_left _)) (ih left)
  | @visit s inner t key keys off new known before after ihInner ihRest =>
    have absent := before.not_resolved_inside new
    have resolved := Traversal.resolved_leave absent
    obtain ⟨block, grown⟩ := before.resolved_prefix
    obtain ⟨more, later⟩ := after.resolved_prefix
    rw [resolved, ← grown, left] at later
    have eq : block ++ key :: more = front ++ back := by
      simpa [Traversal.enter, List.append_assoc] using later
    -- the traversal is stopped while it visits what the module imports, or when it has left the module
    have where_ : (∃ tail, block = front ++ tail) ∨ ∃ tail, front = block ++ key :: tail ∧ more = tail ++ back := by
      rcases List.append_eq_append_iff.mp eq with ⟨tail, rfl, behind⟩ | ⟨tail, rfl, _⟩
      · cases tail with
        | nil => exact Or.inl ⟨[], by simp⟩
        | cons first tail =>
          obtain ⟨rfl, rfl⟩ := List.cons.inj behind
          exact Or.inr ⟨tail, rfl, rfl⟩
      · exact Or.inl ⟨tail, rfl⟩
    rcases where_ with ⟨tail, rfl⟩ | ⟨tail, rfl, rfl⟩
    · rw [← List.append_assoc] at grown
      refine .visit off (fun inFront => absent ?_) known (ihInner grown.symm) after
      rw [← grown]
      exact List.mem_append_left _ inFront
    · refine .skip off (Or.inl (by simp)) ?_
      have left' : t.resolved = (inner.leave key).resolved ++ tail ++ back := by
        rw [resolved, ← grown, left]
        simp [Traversal.enter]
      have rest := ihRest left'
      rw [resolved, ← grown, before.visiting_leave off] at rest
      simpa [Traversal.enter] using rest

end Traverses

/-- A list of all modules is the order of a graph exactly if each of its modules is where the way ends that goes
from the first module which does not stand before it. -/
theorem order_eq_iff (perm : l.Perm g.keys) : g.order = l ↔ ∀ front key back, l = front ++ key :: back →
    ∃ first, g.keys.find? (Traversal.mk front ∅).isNew = some first ∧ g.Descends ⟨front, ∅⟩ first key := by
  have whole : g.Traverses ⟨[], ∅⟩ g.keys ⟨g.order, ∅⟩ := g.traverses_walk [] [] g.keys
  have next (front : List String) (key : String) (back : List String) (eq : g.order = front ++ key :: back) :
      ∃ first, g.keys.find? (Traversal.mk front ∅).isNew = some first ∧ g.Descends ⟨front, ∅⟩ first key :=
    (whole.resume eq).first_left (fun _ known => known) eq
  constructor
  · rintro rfl
    exact next
  · intro each
    have length : g.order.length = l.length := (g.order_perm_keys.trans perm.symm).length_eq
    -- one module after the other, since the way ends at one module only
    have agrees (front back : List String) (eq : l = front ++ back) : front <+: g.order := by
      induction front using List.reverseRecOn generalizing back with
      | nil => exact List.nil_prefix
      | append_singleton front key ih =>
        rw [List.append_assoc, List.singleton_append] at eq
        obtain ⟨rest, order_eq⟩ := ih _ eq
        cases rest with
        | nil =>
          rw [← order_eq, eq] at length
          simp at length
        | cons other rest =>
          obtain ⟨first, found, descends⟩ := each front key back eq
          obtain ⟨first', found', descends'⟩ := next front other rest order_eq.symm
          cases found.symm.trans found'
          rw [descends.unique descends', ← order_eq]
          exact ⟨rest, by simp⟩
    exact ((agrees l [] (List.append_nil l).symm).eq_of_length length.symm).symm

/-- The order depends on the modules and on which edge of each leads to a new module first. -/
theorem order_congr_of_sameFirstEdges {h : Graph} (keys : g.keys = h.keys) (same : g.SameFirstEdges h) :
    g.order = h.order := by
  refine (order_eq_iff (keys ▸ h.order_perm_keys)).mpr fun front key back eq => ?_
  obtain ⟨first, found, descends⟩ := (order_eq_iff h.order_perm_keys).mp rfl front key back eq
  exact ⟨first, keys ▸ found, descends.congr fun s key => (same s key).symm⟩

theorem order_congr {h : Graph} (keys : g.keys = h.keys) (edges : ∀ key, g.edges key = h.edges key) :
    g.order = h.order :=
  order_congr_of_sameFirstEdges keys fun s key => congrArg (List.find? (s.enter key).isNew) (edges key)

theorem order_eq_pair {first second : String} (perm : [first, second].Perm g.keys)
    (one : ∃ start, g.keys.find? (Traversal.mk [] ∅).isNew = some start ∧ g.Descends ⟨[], ∅⟩ start first)
    (two : ∃ start, g.keys.find? (Traversal.mk [first] ∅).isNew = some start ∧ g.Descends ⟨[first], ∅⟩ start second) :
    g.order = [first, second] := by
  refine (order_eq_iff perm).mpr fun front key back eq => ?_
  rcases List.append_eq_cons_iff.mp eq.symm with ⟨rfl, rest⟩ | ⟨front, rfl, rest⟩
  · cases rest
    exact one
  · rcases List.append_eq_cons_iff.mp rest.symm with ⟨rfl, rest⟩ | ⟨front, rfl, rest⟩
    · cases rest
      exact two
    · simp at rest

end Graph

end ModuleBundler
