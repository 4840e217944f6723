namespace ModuleBundler

variable {α κ : Type}

structure KeyedList (key : α → κ) where
  toList : List α
  keys_nodup : (toList.map key).Nodup := by simp

namespace KeyedList

variable {key : α → κ}

def empty : KeyedList key where
  toList := []

def keys (l : KeyedList key) : List κ := l.toList.map key

def size (l : KeyedList key) : Nat := l.toList.length

/-- The elements for which `p` holds. -/
def filter (p : α → Bool) (l : KeyedList key) : KeyedList key where
  toList := l.toList.filter p
  keys_nodup := l.keys_nodup.sublist (List.filter_sublist.map key)

variable [DecidableEq κ]

/-- The element with a key. -/
def get? (l : KeyedList key) (k : κ) : Option α := l.toList.find? fun a => key a = k

/-- Puts an element in the place of the one with its key. -/
def replaceIn (key : α → κ) (new : α) (l : List α) : List α := l.map fun a => if key a = key new then new else a

theorem map_replaceIn (new : α) (l : List α) : (replaceIn key new l).map key = l.map key := by
  induction l with
  | nil => rfl
  | cons a rest ih =>
    simp only [replaceIn, List.map_cons, List.map_map] at ih ⊢
    rw [ih]
    split
    · next same => rw [same]
    · rfl

/-- Puts an element where it belongs. -/
def put (l : KeyedList key) (new : α) : KeyedList key :=
  if present : key new ∈ l.keys then ⟨replaceIn key new l.toList, by rw [map_replaceIn]; exact l.keys_nodup⟩
  else
    ⟨l.toList ++ [new], by
      rw [List.map_append, List.map_singleton, List.nodup_append]
      refine ⟨l.keys_nodup, by simp, fun k old k' added same => present ?_⟩
      rw [List.mem_singleton] at added
      exact added ▸ same ▸ old⟩

/-- Puts the elements of a list one after the other. -/
def ofList (l : List α) : KeyedList key := l.foldl put empty

theorem keys_put (l : KeyedList key) (new : α) :
    (l.put new).keys = if key new ∈ l.keys then l.keys else l.keys ++ [key new] := by
  unfold put
  split
  · exact map_replaceIn new l.toList
  · simp [keys]

end KeyedList

end ModuleBundler
