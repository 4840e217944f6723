import Mathlib.Data.List.Forall2
import Mathlib.Data.List.Induction
import Mathlib.Data.List.Nodup
import ModuleBundler.KeyedList

namespace ModuleBundler.KeyedList

variable {α κ : Type} [DecidableEq κ] {key : α → κ} {l : KeyedList key} {a : α} {k : κ}

theorem get?_eq_some_iff : l.get? k = some a ↔ a ∈ l.toList ∧ key a = k := by
  constructor
  · intro found
    exact ⟨List.mem_of_find?_eq_some found, by simpa using List.find?_some found⟩
  · rintro ⟨member, same⟩
    obtain ⟨b, found⟩ : ∃ b, l.get? k = some b :=
      Option.isSome_iff_exists.mp (List.find?_isSome.mpr ⟨a, member, by simpa using same⟩)
    have key_b : key b = k := by simpa using List.find?_some found
    have b_member := List.mem_of_find?_eq_some found
    rw [found, List.inj_on_of_nodup_map l.keys_nodup b_member member (key_b.trans same.symm)]

theorem mem_toList_put {new : α} : a ∈ (l.put new).toList ↔ a = new ∨ a ∈ l.toList ∧ key a ≠ key new := by
  unfold put
  split
  · next present =>
    obtain ⟨old, member, same⟩ := List.mem_map.mp present
    simp only [replaceIn, List.mem_map]
    constructor
    · rintro ⟨b, inside, rfl⟩
      split
      · exact Or.inl rfl
      · next other => exact Or.inr ⟨inside, other⟩
    · rintro (rfl | ⟨inside, other⟩)
      · exact ⟨old, member, if_pos same⟩
      · exact ⟨a, inside, if_neg other⟩
  · next absent =>
    rw [List.mem_append, List.mem_singleton, or_comm]
    refine or_congr_right (iff_self_and.mpr fun inside same => absent ?_)
    exact List.mem_map.mpr ⟨a, inside, same⟩

theorem get?_put (l : KeyedList key) (new : α) (k : κ) :
    (l.put new).get? k = if k = key new then some new else l.get? k := by
  ext a
  rw [get?_eq_some_iff, mem_toList_put]
  split
  · next same =>
    subst same
    rw [Option.some.injEq]
    constructor
    · rintro ⟨rfl | ⟨_, other⟩, same⟩
      · rfl
      · exact absurd same other
    · rintro rfl
      exact ⟨Or.inl rfl, rfl⟩
  · next other =>
    rw [get?_eq_some_iff]
    constructor
    · rintro ⟨rfl | ⟨inside, _⟩, same⟩
      · exact absurd same.symm other
      · exact ⟨inside, same⟩
    · rintro ⟨inside, same⟩
      exact ⟨Or.inr ⟨inside, fun other' => other (same.symm.trans other')⟩, same⟩

/-- A filter that goes by the keys alone. -/
theorem get?_filter (l : KeyedList key) (p : κ → Bool) (k : κ) :
    (l.filter fun a => p (key a)).get? k = if p k then l.get? k else none := by
  ext a
  rw [get?_eq_some_iff]
  simp only [filter, List.mem_filter]
  split
  · next kept =>
    rw [get?_eq_some_iff]
    constructor
    · rintro ⟨⟨inside, _⟩, same⟩
      exact ⟨inside, same⟩
    · rintro ⟨inside, same⟩
      exact ⟨⟨inside, same ▸ kept⟩, same⟩
  · next dropped =>
    constructor
    · rintro ⟨⟨_, kept⟩, same⟩
      exact absurd (same ▸ kept) dropped
    · intro none
      cases none

variable {elements others : List α}

theorem get?_foldl_put (elements : List α) (l : KeyedList key) (k : κ) :
    (elements.foldl put l).get? k = (elements.reverse.find? fun a => key a = k).or (l.get? k) := by
  induction elements generalizing l with
  | nil => rfl
  | cons a elements ih =>
    rw [List.foldl_cons, ih, get?_put, List.reverse_cons, List.find?_append, Option.or_assoc]
    congr 1
    rw [List.find?_singleton]
    by_cases same : k = key a
    · subst same
      simp
    · simp [same, Ne.symm same]

/-- Of the elements with one key, the last one stays. -/
theorem get?_ofList (elements : List α) (k : κ) :
    (ofList elements : KeyedList key).get? k = elements.reverse.find? fun a => key a = k := by
  rw [ofList, get?_foldl_put]
  exact Option.or_none

theorem mem_of_mem_ofList (member : a ∈ (ofList elements : KeyedList key).toList) : a ∈ elements := by
  have found := get?_eq_some_iff.mpr ⟨member, rfl⟩
  rw [get?_ofList] at found
  exact List.mem_reverse.mp (List.mem_of_find?_eq_some found)

theorem exists_get?_ofList (member : a ∈ elements) :
    ∃ b, (ofList elements : KeyedList key).get? (key a) = some b := by
  rw [← Option.isSome_iff_exists, get?_ofList, List.find?_isSome]
  exact ⟨a, List.mem_reverse.mpr member, by simp⟩

/-- What is found in a list is related to what is found in a list of related elements. -/
theorem get?_ofList_of_forall₂ {R : α → α → Prop} (sameKey : ∀ a b, R a b → key a = key b)
    (related : List.Forall₂ R elements others)
    (found : (ofList elements : KeyedList key).get? k = some a) :
        ∃ b, (ofList others : KeyedList key).get? k = some b ∧ R a b := by
  rw [get?_ofList] at found ⊢
  have backwards := List.forall₂_reverse_iff.mpr related
  generalize elements.reverse = l at found backwards
  generalize others.reverse = l' at backwards
  induction backwards with
  | nil => cases found
  | @cons first other _ _ here _ ih =>
    by_cases same : key first = k
    · rw [List.find?_cons_of_pos (by simpa using same)] at found
      cases found
      exact ⟨other, List.find?_cons_of_pos (by simpa [← sameKey _ _ here] using same), here⟩
    · rw [List.find?_cons_of_neg (by simpa using same)] at found
      rw [List.find?_cons_of_neg (by simpa [← sameKey _ _ here] using same)]
      exact ih found

/-- The keys stand in the order in which each came first. -/
theorem keys_ofList (elements : List α) : (ofList elements : KeyedList key).keys = (elements.map key).eraseDups := by
  induction elements using List.reverseRecOn with
  | nil => rfl
  | append_singleton elements a ih =>
    have last : (ofList (elements ++ [a]) : KeyedList key) = (ofList elements).put a := List.foldl_concat ..
    rw [last, keys_put, ih, List.map_append, List.map_singleton, List.eraseDups_append, List.removeAll]
    by_cases present : key a ∈ elements.map key
    · rw [if_pos (List.mem_eraseDups.mpr present), List.filter_cons_of_neg (by simpa using present)]
      exact (List.append_nil _).symm
    · rw [if_neg (mt List.mem_eraseDups.mp present), List.filter_cons_of_pos (by simpa using present)]
      rfl

/-- Of the elements with one key, the one behind which none has the key again. -/
theorem get?_ofList_eq_some_iff : (ofList elements : KeyedList key).get? k = some a ↔
    ∃ before after, elements = before ++ a :: after ∧ key a = k ∧ ∀ later ∈ after, key later ≠ k := by
  simp only [get?_ofList, List.find?_eq_some_iff_append, decide_eq_true_eq, Bool.not_eq_true',
    decide_eq_false_iff_not]
  constructor
  · rintro ⟨same, after, before, split, others⟩
    refine ⟨before.reverse, after.reverse, ?_, same, fun later member => others later (List.mem_reverse.mp member)⟩
    rw [← List.reverse_reverse elements, split, List.reverse_append, List.reverse_cons, List.append_assoc,
      List.singleton_append]
  · rintro ⟨before, after, rfl, same, others⟩
    refine ⟨same, after.reverse, before.reverse, ?_, fun later member => others later (List.mem_reverse.mp member)⟩
    rw [List.reverse_append, List.reverse_cons, List.append_assoc, List.singleton_append]

/-- Elements with different keys are all there, in their order. -/
theorem toList_ofList (distinct : (elements.map key).Nodup) :
    (ofList elements : KeyedList key).toList = elements := by
  induction elements using List.reverseRecOn with
  | nil => rfl
  | append_singleton elements a ih =>
    have last : (ofList (elements ++ [a]) : KeyedList key) = (ofList elements).put a := List.foldl_concat ..
    rw [List.map_append, List.map_singleton, List.nodup_append] at distinct
    obtain ⟨distinct, _, apart⟩ := distinct
    have absent : key a ∉ (ofList elements : KeyedList key).keys := by
      rw [keys, ih distinct]
      exact fun present => apart (key a) present (key a) (List.mem_singleton_self _) rfl
    rw [last, put, dif_neg absent]
    exact congrArg (· ++ [a]) (ih distinct)

/-- Two orders of the same elements. -/
theorem get?_eq_of_perm {l' : KeyedList key} (perm : l.toList.Perm l'.toList) (k : κ) : l.get? k = l'.get? k := by
  ext a
  rw [get?_eq_some_iff, get?_eq_some_iff, perm.mem_iff]

theorem keys_foldl_put_congr {l l' : KeyedList key} (keys : l.keys = l'.keys)
    (same : elements.map key = others.map key) :
    (elements.foldl put l).keys = (others.foldl put l').keys := by
  induction elements generalizing others l l' with
  | nil =>
    rw [List.map_nil, eq_comm, List.map_eq_nil_iff] at same
    rw [same]
    exact keys
  | cons a elements ih =>
    obtain ⟨b, others, rfl⟩ : ∃ b rest, others = b :: rest :=
      List.exists_cons_of_ne_nil fun nil => by simp [nil] at same
    obtain ⟨first, rest⟩ := List.cons.inj same
    rw [List.foldl_cons, List.foldl_cons]
    refine ih ?_ rest
    rw [keys_put, keys_put, keys, first]

end ModuleBundler.KeyedList
