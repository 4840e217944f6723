import Mathlib.Data.List.TakeWhile
import ModuleBundler.Text.Blank

namespace ModuleBundler.Text

variable {part text : List Char} {place i k : Nat} {c : Char}

/-- Whether a part of a text stands at a place of it. -/
def IsPartAt (part text : List Char) (place : Nat) : Prop :=
    ∃ front back, text = front ++ part ++ back ∧ front.length = place

theorem isPartAt_of_getElem? (bound : place + part.length ≤ text.length)
    (same : ∀ k < part.length, text[place + k]? = part[k]?) : IsPartAt part text place := by
  have here : (text.drop place).take part.length = part := by
    apply List.ext_getElem?
    intro k
    by_cases inside : k < part.length
    · rw [List.getElem?_take_of_lt inside, List.getElem?_drop, same k inside]
    · have behind := Nat.le_of_not_lt inside
      rw [List.getElem?_eq_none behind, List.getElem?_eq_none (Nat.le_trans (List.length_take_le _ _) behind)]
  have whole : text.take place ++ ((text.drop place).take part.length ++ (text.drop place).drop part.length) =
      text := by
    rw [List.take_append_drop, List.take_append_drop]
  rw [here, ← List.append_assoc] at whole
  exact ⟨_, _, whole.symm, List.length_take_of_le (by omega)⟩

/-- A text is what is left of it when it is trimmed, with white space around. -/
theorem trim_eq (text : List Char) :
    ∃ front back, text = front ++ trim text ++ back ∧ front.length = blankLength text ∧
      (∀ c ∈ front, isBlank c = true) ∧ ∀ c ∈ back, isBlank c = true := by
  refine ⟨text.takeWhile isBlank, ((trimStart text).reverse.takeWhile isBlank).reverse, ?_, rfl,
    fun c member => List.mem_takeWhile_imp member, fun c member => ?_⟩
  · rw [List.append_assoc, trim, trimEnd, ← List.reverse_append, List.takeWhile_append_dropWhile,
      List.reverse_reverse, trimStart, List.takeWhile_append_dropWhile]
  · exact List.mem_takeWhile_imp (List.mem_reverse.mp member)

/-- A character that is no white space is kept. -/
theorem within_trim (here : text[i]? = some c) (solid : isBlank c = false) :
    blankLength text ≤ i ∧ i < blankLength text + (trim text).length := by
  obtain ⟨front, back, eq, length, blankFront, blankBack⟩ := trim_eq text
  rw [eq] at here
  constructor
  · by_contra before
    rw [List.append_assoc, List.getElem?_append_left (by omega)] at here
    rw [blankFront c (List.mem_of_getElem? here)] at solid
    cases solid
  · by_contra behind
    rw [List.getElem?_append_right (by rw [List.length_append]; omega)] at here
    rw [blankBack c (List.mem_of_getElem? here)] at solid
    cases solid

theorem getElem?_trim (inside : k < (trim text).length) : (trim text)[k]? = text[blankLength text + k]? := by
  obtain ⟨front, back, eq, length, _⟩ := trim_eq text
  rw [← length]
  conv => rhs; rw [eq]
  rw [List.append_assoc, List.getElem?_append_right (by omega), Nat.add_sub_cancel_left,
    List.getElem?_append_left inside]

end ModuleBundler.Text
