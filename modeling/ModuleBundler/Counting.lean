namespace ModuleBundler

variable {α : Type} {p q : α → Bool} {a : α}

/-- A property that is stronger than another, and fails where the other holds, counts fewer elements. -/
theorem countP_lt_countP (stronger : ∀ x, p x = true → q x = true) (fails : p a = false) (holds : q a = true) :
    {l : List α} → a ∈ l → l.countP p < l.countP q
  | [], member => by simp at member
  | x :: l, member => by
    have rest : l.countP p ≤ l.countP q := List.countP_mono_left fun x _ => stronger x
    rw [List.countP_cons, List.countP_cons]
    rcases List.mem_cons.mp member with same | inRest
    · subst same
      rw [if_neg (by rw [fails]; decide), if_pos holds]
      omega
    · have less := countP_lt_countP stronger fails holds inRest
      by_cases here : p x = true
      · rw [if_pos here, if_pos (stronger x here)]
        omega
      · rw [if_neg here]
        omega

end ModuleBundler
