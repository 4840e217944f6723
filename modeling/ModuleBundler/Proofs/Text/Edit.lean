import Mathlib.Algebra.BigOperators.Group.List.Basic
import Mathlib.Algebra.Ring.Int.Defs
import Mathlib.Data.List.Sort
import ModuleBundler.Text.Edit

/-!
Where the characters of a text stand after edits.

Edits that lie apart can be made in the order of the text. A character that none of them covers is still
there afterwards, at the place that `Edit.place` gives, and characters keep their order. `Edit.shift?`
computes the same place for a whole span, in whatever order the edits are listed.
-/

namespace ModuleBundler.Text.Edit

/-- Whether an edit replaces the character at a place. -/
def Covers (e : Edit) (p : Nat) : Prop := e.span.start ≤ p ∧ p < e.span.stop

/-- Whether no edit replaces the character at a place. -/
def Free (edits : List Edit) (p : Nat) : Prop := ∀ e ∈ edits, ¬e.Covers p

/-- Edits of a text of some length that do not touch each other. -/
structure Apart (edits : List Edit) (length : Nat) : Prop where
  nonempty : ∀ e ∈ edits, e.span.start < e.span.stop
  within : ∀ e ∈ edits, e.span.stop ≤ length
  disjoint : edits.Pairwise fun a b => a.span.stop ≤ b.span.start ∨ b.span.stop ≤ a.span.start

/-- Edits behind a position, each behind the one before it. -/
def InOrder (length : Nat) : (position : Nat) → List Edit → Prop
  | position, [] => position ≤ length
  | position, e :: edits => position ≤ e.span.start ∧ e.span.start < e.span.stop ∧ InOrder length e.span.stop edits

/-- Where a character stands after edits that are in order, counted from `position` on. -/
def placeFrom : (position : Nat) → List Edit → (p : Nat) → Nat
  | position, [], p => p - position
  | position, e :: edits, p =>
    if p < e.span.start then p - position
    else (e.span.start - position) + e.replacement.length + placeFrom e.span.stop edits p

/-- Where a character stands after edits. -/
def place (edits : List Edit) (p : Nat) : Nat := placeFrom 0 (sorted edits) p

/-- By how much a text grows where an edit is made. -/
def growth (e : Edit) : Int := e.replacement.length - e.span.length

/-- By how much a text grows before a place. -/
def growthBefore (edits : List Edit) (p : Nat) : Int :=
  ((edits.filter fun e => e.span.stop ≤ p).map growth).sum

theorem growthBefore_cons (e : Edit) (edits : List Edit) (p : Nat) :
    growthBefore (e :: edits) p = (if e.span.stop ≤ p then e.growth else 0) + growthBefore edits p := by
  unfold growthBefore
  by_cases before : e.span.stop ≤ p
  · rw [List.filter_cons_of_pos (by simpa using before), if_pos before, List.map_cons, List.sum_cons]
  · rw [List.filter_cons_of_neg (by simpa using before), if_neg before, zero_add]

theorem growthBefore_perm {a b : List Edit} (same : a.Perm b) (p : Nat) : growthBefore a p = growthBefore b p :=
  ((same.filter _).map _).sum_eq

theorem Free.perm {a b : List Edit} {p : Nat} (free : Free a p) (same : a.Perm b) : Free b p :=
  fun e member => free e (same.mem_iff.mpr member)

section InOrder

variable {length position p q : Nat} {e : Edit} {edits : List Edit} {text : List Char}

theorem InOrder.le_length (order : InOrder length position edits) : position ≤ length := by
  induction edits generalizing position with
  | nil => exact order
  | cons e edits ih =>
    obtain ⟨before, nonempty, rest⟩ := order
    have := ih rest
    omega

theorem InOrder.le_start (order : InOrder length position edits) (member : e ∈ edits) : position ≤ e.span.start := by
  induction edits generalizing position with
  | nil => simp at member
  | cons first edits ih =>
    obtain ⟨before, nonempty, rest⟩ := order
    rcases List.mem_cons.mp member with rfl | later
    · exact before
    · have := ih rest later
      omega

theorem growthBefore_of_lt (order : InOrder length position edits) (before : p ≤ position) :
    growthBefore edits p = 0 := by
  induction edits generalizing position with
  | nil => rfl
  | cons e edits ih =>
    obtain ⟨lower, nonempty, rest⟩ := order
    rw [growthBefore_cons, if_neg (by omega), ih rest (by omega), zero_add]

/-- The place of a character that is not replaced, by what the text grows before it. -/
theorem placeFrom_eq (order : InOrder length position edits) (free : Free edits p) (behind : position ≤ p) :
    (placeFrom position edits p : Int) = p - position + growthBefore edits p := by
  induction edits generalizing position with
  | nil =>
    simp only [placeFrom, growthBefore, List.filter_nil, List.map_nil, List.sum_nil]
    omega
  | cons e edits ih =>
    obtain ⟨lower, nonempty, rest⟩ := order
    have uncovered := free e List.mem_cons_self
    have later : Free edits p := fun f member => free f (List.mem_cons_of_mem _ member)
    rw [placeFrom, growthBefore_cons]
    by_cases before : p < e.span.start
    · rw [if_pos before, if_neg (by omega), growthBefore_of_lt rest (by omega)]
      omega
    · have after : e.span.stop ≤ p := by
        unfold Covers at uncovered
        omega
      have found := ih rest later after
      rw [if_neg before, if_pos after, growth, Span.length]
      omega

theorem placeFrom_lt_placeFrom (order : InOrder length position edits) (freeP : Free edits p) (freeQ : Free edits q)
    (behind : position ≤ p) (less : p < q) : placeFrom position edits p < placeFrom position edits q := by
  induction edits generalizing position with
  | nil =>
    simp only [placeFrom]
    omega
  | cons e edits ih =>
    obtain ⟨lower, nonempty, rest⟩ := order
    have uncovered := freeP e List.mem_cons_self
    unfold Covers at uncovered
    rw [placeFrom, placeFrom]
    by_cases before : p < e.span.start
    · rw [if_pos before]
      split <;> omega
    · have inside := ih rest (fun f member => freeP f (List.mem_cons_of_mem _ member))
        (fun f member => freeQ f (List.mem_cons_of_mem _ member)) (by omega)
      rw [if_neg before, if_neg (by omega)]
      omega

theorem applyFrom_cons (order : InOrder length position (e :: edits)) (rest : List Char) :
    applyFrom position (e :: edits) rest =
      rest.take (e.span.start - position) ++ e.replacement ++
        applyFrom e.span.stop edits (rest.drop (e.span.stop - position)) := by
  rw [applyFrom, if_neg (Nat.not_lt.mpr order.1)]

/-- A character that is not replaced is found at its place. -/
theorem getElem?_applyFrom (order : InOrder text.length position edits) (free : Free edits p)
    (behind : position ≤ p) :
    (applyFrom position edits (text.drop position))[placeFrom position edits p]? = text[p]? := by
  induction edits generalizing position with
  | nil =>
    rw [applyFrom, placeFrom, List.getElem?_drop]
    congr 1
    omega
  | cons e edits ih =>
    have uncovered := free e List.mem_cons_self
    unfold Covers at uncovered
    have later : Free edits p := fun f member => free f (List.mem_cons_of_mem _ member)
    obtain ⟨lower, nonempty, rest⟩ := order
    have bound := rest.le_length
    have front : ((text.drop position).take (e.span.start - position)).length = e.span.start - position := by
      rw [List.length_take, List.length_drop]
      omega
    rw [applyFrom_cons ⟨lower, nonempty, rest⟩, placeFrom, List.append_assoc]
    by_cases before : p < e.span.start
    · rw [if_pos before, List.getElem?_append_left (by omega), List.getElem?_take_of_lt (by omega),
        List.getElem?_drop]
      congr 1
      omega
    · have found := ih rest later (by omega)
      rw [if_neg before, List.getElem?_append_right (by omega), front,
        List.getElem?_append_right (by omega), List.drop_drop]
      rw [← found]
      congr 2
      · congr 1
        omega
      · omega

/-- A character of an edited text is one that has not been replaced, or part of a replacement. -/
theorem origin_applyFrom (order : InOrder text.length position edits) {i : Nat} {c : Char}
    (here : (applyFrom position edits (text.drop position))[i]? = some c) :
    (∃ p, position ≤ p ∧ p < text.length ∧ Free edits p ∧ placeFrom position edits p = i) ∨
      ∃ e ∈ edits, c ∈ e.replacement := by
  induction edits generalizing position i with
  | nil =>
    rw [applyFrom, List.getElem?_drop] at here
    have bound := List.getElem?_eq_some_iff.mp here |>.choose
    refine Or.inl ⟨position + i, by omega, bound, fun e member => by simp at member, ?_⟩
    rw [placeFrom]
    omega
  | cons e edits ih =>
    obtain ⟨lower, nonempty, rest⟩ := order
    have bound := rest.le_length
    have front : ((text.drop position).take (e.span.start - position)).length = e.span.start - position := by
      rw [List.length_take, List.length_drop]
      omega
    rw [applyFrom_cons ⟨lower, nonempty, rest⟩, List.append_assoc] at here
    by_cases before : i < e.span.start - position
    · refine Or.inl ⟨position + i, by omega, by omega, fun f member covered => ?_, ?_⟩
      · unfold Covers at covered
        rcases List.mem_cons.mp member with rfl | later
        · omega
        · have := rest.le_start later
          omega
      · rw [placeFrom, if_pos (by omega)]
        omega
    · rw [List.getElem?_append_right (by omega), front] at here
      by_cases replaced : i - (e.span.start - position) < e.replacement.length
      · rw [List.getElem?_append_left replaced] at here
        exact Or.inr ⟨e, List.mem_cons_self, List.mem_of_getElem? here⟩
      · rw [List.getElem?_append_right (by omega), List.drop_drop,
          show position + (e.span.stop - position) = e.span.stop by omega] at here
        rcases ih rest here with ⟨p, behind, inside, free, same⟩ | ⟨f, member, found⟩
        · refine Or.inl ⟨p, by omega, inside, fun f member covered => ?_, ?_⟩
          · rcases List.mem_cons.mp member with rfl | later
            · unfold Covers at covered
              omega
            · exact free f later covered
          · rw [placeFrom, if_neg (by omega), same]
            omega
        · exact Or.inr ⟨f, List.mem_cons_of_mem _ member, found⟩

/-- Where edits put in less than they take, each of them shortens the text by a character at least. -/
theorem length_applyFrom_le (order : InOrder text.length position edits)
    (shorter : ∀ e ∈ edits, e.replacement.length < e.span.length) :
    (applyFrom position edits (text.drop position)).length + edits.length ≤ text.length - position := by
  induction edits generalizing position with
  | nil =>
    rw [applyFrom, List.length_drop, List.length_nil, Nat.add_zero]
  | cons e edits ih =>
    obtain ⟨lower, nonempty, rest⟩ := order
    have behind := ih rest fun f member => shorter f (List.mem_cons_of_mem _ member)
    have taken := shorter e List.mem_cons_self
    have bound := rest.le_length
    unfold Span.length at taken
    rw [applyFrom_cons ⟨lower, nonempty, rest⟩, List.drop_drop]
    simp only [List.length_append, List.length_take, List.length_drop, List.length_cons]
    rw [show position + (e.span.stop - position) = e.span.stop by omega]
    omega

end InOrder

section Apart

variable {length p q : Nat} {edits : List Edit} {text : List Char}

theorem sorted_perm (edits : List Edit) : (sorted edits).Perm edits := List.mergeSort_perm _ _

theorem pairwise_sorted (edits : List Edit) :
    (sorted edits).Pairwise fun a b => a.span.start ≤ b.span.start := by
  refine (List.pairwise_mergeSort (fun a b c first second => ?_) (fun a b => ?_) edits).imp of_decide_eq_true
  · simp only [decide_eq_true_eq] at *
    omega
  · simp only [Bool.or_eq_true, decide_eq_true_eq]
    omega

theorem Apart.perm {a b : List Edit} (apart : Apart a length) (same : a.Perm b) : Apart b length where
  nonempty e member := apart.nonempty e (same.mem_iff.mpr member)
  within e member := apart.within e (same.mem_iff.mpr member)
  disjoint := same.pairwise apart.disjoint fun clear => clear.symm

theorem inOrder_of_pairwise {position : Nat} (apart : Apart edits length)
    (behind : ∀ e ∈ edits, position ≤ e.span.start)
    (bound : position ≤ length) (order : edits.Pairwise fun a b => a.span.start ≤ b.span.start) :
    InOrder length position edits := by
  induction edits generalizing position with
  | nil => exact bound
  | cons e edits ih =>
    obtain ⟨clear, disjoint⟩ := List.pairwise_cons.mp apart.disjoint
    obtain ⟨first, order⟩ := List.pairwise_cons.mp order
    have nonempty := apart.nonempty e List.mem_cons_self
    refine ⟨behind e List.mem_cons_self, nonempty, ih ⟨?_, ?_, disjoint⟩ ?_ (apart.within e List.mem_cons_self) order⟩
    · exact fun f member => apart.nonempty f (List.mem_cons_of_mem _ member)
    · exact fun f member => apart.within f (List.mem_cons_of_mem _ member)
    · intro f member
      have later := first f member
      have := apart.nonempty f (List.mem_cons_of_mem _ member)
      rcases clear f member with before | after <;> omega

theorem Apart.inOrder (apart : Apart edits length) : InOrder length 0 (sorted edits) :=
  inOrder_of_pairwise (apart.perm (sorted_perm edits).symm) (fun _ _ => Nat.zero_le _) (Nat.zero_le _)
    (pairwise_sorted edits)

theorem Free.sorted (free : Free edits p) : Free (sorted edits) p := free.perm (sorted_perm edits).symm

theorem place_eq (apart : Apart edits length) (free : Free edits p) :
    (place edits p : Int) = p + growthBefore edits p := by
  rw [place, placeFrom_eq apart.inOrder free.sorted (Nat.zero_le p), growthBefore_perm (sorted_perm edits)]
  omega

theorem place_lt_place (apart : Apart edits length) (freeP : Free edits p) (freeQ : Free edits q) (less : p < q) :
    place edits p < place edits q :=
  placeFrom_lt_placeFrom apart.inOrder freeP.sorted freeQ.sorted (Nat.zero_le p) less

theorem getElem?_applyAll (apart : Apart edits text.length) (free : Free edits p) :
    (applyAll edits text)[place edits p]? = text[p]? :=
  getElem?_applyFrom apart.inOrder free.sorted (Nat.zero_le p)

/-- A character of an edited text is one that has not been replaced, or part of a replacement. -/
theorem origin_applyAll (apart : Apart edits text.length) {i : Nat} {c : Char}
    (here : (applyAll edits text)[i]? = some c) :
    (∃ p, p < text.length ∧ Free edits p ∧ place edits p = i) ∨ ∃ e ∈ edits, c ∈ e.replacement := by
  rcases origin_applyFrom apart.inOrder here with ⟨p, _, inside, free, same⟩ | ⟨e, member, found⟩
  · exact Or.inl ⟨p, inside, free.perm (sorted_perm edits), same⟩
  · exact Or.inr ⟨e, (sorted_perm edits).mem_iff.mp member, found⟩

theorem applyAll_nil (text : List Char) : applyAll [] text = text := by
  rw [applyAll, sorted, List.mergeSort_nil, applyFrom]

theorem length_applyAll_le (apart : Apart edits text.length)
    (shorter : ∀ e ∈ edits, e.replacement.length < e.span.length) :
    (applyAll edits text).length + edits.length ≤ text.length := by
  have sameLength := (sorted_perm edits).length_eq
  have bound := length_applyFrom_le apart.inOrder fun e member => shorter e ((sorted_perm edits).mem_iff.mp member)
  rw [List.drop_zero, Nat.sub_zero] at bound
  rw [applyAll]
  omega

/-- The growth before a place is the same wherever no edit stops in between. -/
theorem growthBefore_eq_of_free {k : Nat} (free : ∀ j < k, Free edits (p + j)) (apart : Apart edits length) :
    ∀ j < k, growthBefore edits (p + j) = growthBefore edits p := by
  intro j less
  unfold growthBefore
  congr 2
  refine List.filter_congr fun e member => ?_
  have nonempty := apart.nonempty e member
  have first := free 0 (by omega) e member
  have last := free j less e member
  simp only [decide_eq_decide]
  unfold Covers at first last
  constructor
  · intro before
    by_contra later
    have inside := free (e.span.stop - 1 - p) (by omega) e member
    unfold Covers at inside
    omega
  · omega

/-- Characters that stand together and are not replaced stay together. -/
theorem place_add (apart : Apart edits length) {k : Nat} (free : ∀ j < k, Free edits (p + j))
    {j : Nat} (less : j < k) :
    place edits (p + j) = place edits p + j := by
  have here := place_eq apart (free j less)
  have start := place_eq apart (free 0 (by omega))
  have same := growthBefore_eq_of_free free apart j less
  simp only [Nat.add_zero] at start
  omega

theorem shiftStart_eq (span : Span) (place : Int)
    (clear : ∀ e ∈ edits, e.span.stop ≤ span.start ∨ span.stop ≤ e.span.start) :
    shiftStart span place edits = some (place + growthBefore edits span.start) := by
  induction edits generalizing place with
  | nil =>
    rw [shiftStart, growthBefore, List.filter_nil, List.map_nil, List.sum_nil, Int.add_zero]
  | cons e edits ih =>
    have later := fun f member => clear f (List.mem_cons_of_mem _ member)
    rw [shiftStart, growthBefore_cons]
    by_cases before : e.span.stop ≤ span.start
    · rw [if_pos before, if_pos before, ih _ later, growth, Int.add_assoc]
    · have after := (clear e List.mem_cons_self).resolve_left before
      rw [if_neg before, if_neg before, if_neg (Nat.not_lt.mpr after), ih _ later, zero_add]

/-- A span that no edit meets moves as a whole to the place of its first character. -/
theorem shift?_eq (apart : Apart edits length) {span : Span} (free : Free edits span.start)
    (clear : ∀ e ∈ edits, e.span.stop ≤ span.start ∨ span.stop ≤ e.span.start) :
    shift? edits span = some ⟨place edits span.start, place edits span.start + span.length⟩ := by
  have here := place_eq apart free
  rw [shift?, shiftStart_eq span _ clear, Option.map_some, ← here]
  simp

end Apart

end ModuleBundler.Text.Edit
