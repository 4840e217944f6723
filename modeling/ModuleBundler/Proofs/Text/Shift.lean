import ModuleBundler.Proofs.Text.Edit

/-!
Where spans of a text stand after edits.

A span that no edit meets cuts an edited text in three: what stood before the span with the edits made there, the
span as it was, and what stood behind it with the other edits (`applyAll_around`). `Edit.shift?` adds up what the
edits before the span put in and take away, in the order of the list, and so finds where the first part ends.
-/

namespace ModuleBundler.Text

/-- Whether a span is one of a text of some length. -/
structure Span.IsWithin (span : Span) (length : Nat) : Prop where
  order : span.start ≤ span.stop
  bound : span.stop ≤ length

/-- The characters of a span. -/
def Span.slice (span : Span) (text : List Char) : List Char := (text.drop span.start).take span.length

theorem Span.length_slice {span : Span} {text : List Char} (within : span.IsWithin text.length) :
    (span.slice text).length = span.length := by
  have bound := within.bound
  rw [slice, List.length_take, List.length_drop, length]
  omega

namespace Edit

/-- Whether an edit meets a span: it replaces a character of the span, or the span is empty and stands inside of
what is replaced. -/
def Meets (e : Edit) (span : Span) : Prop :=
  (∃ p, span.start ≤ p ∧ p < span.stop ∧ e.Covers p) ∨
    span.start = span.stop ∧ e.span.start < span.start ∧ span.start < e.span.stop

/-- Whether each edit stands on one side of a span. -/
def Clear (edits : List Edit) (span : Span) : Prop := ∀ e ∈ edits, e.span.stop ≤ span.start ∨ span.stop ≤ e.span.start

/-- The edits that are made before a place. -/
def before (edits : List Edit) (p : Nat) : List Edit := edits.filter fun e => e.span.stop ≤ p

/-- The edits that are made behind a place. -/
def behind (edits : List Edit) (p : Nat) : List Edit := edits.filter fun e => p ≤ e.span.start

variable {length position p : Nat} {e : Edit} {edits other front back : List Edit}
  {text : List Char} {span moved : Span}
  {place place' : Int}

theorem clear_iff (apart : Apart edits length) (order : span.start ≤ span.stop) :
    Clear edits span ↔ ∀ e ∈ edits, ¬e.Meets span := by
  refine forall₂_congr fun e member => ?_
  have nonempty := apart.nonempty e member
  unfold Meets Covers
  constructor
  · rintro side (⟨p, lower, upper, starts, stops⟩ | ⟨isEmpty, lower, upper⟩) <;> omega
  · intro unmet
    by_contra! both
    refine unmet ?_
    by_cases isEmpty : span.start = span.stop
    · exact Or.inr ⟨isEmpty, by omega, both.1⟩
    · exact Or.inl ⟨max span.start e.span.start, by omega, by omega, by omega, by omega⟩

/-- The loop comes to its end exactly if each edit stands on one side of the span. -/
theorem isSome_shiftStart_iff : (shiftStart span place edits).isSome ↔ Clear edits span := by
  unfold Clear
  induction edits generalizing place with
  | nil => simp [shiftStart]
  | cons e edits ih =>
    rw [shiftStart, List.forall_mem_cons]
    by_cases stops : e.span.stop ≤ span.start
    · rw [if_pos stops, ih, and_iff_right (Or.inl stops)]
    · rw [if_neg stops, or_iff_right stops]
      by_cases starts : e.span.start < span.stop
      · rw [if_pos starts]
        exact iff_of_false (by simp) fun side => absurd side.1 (Nat.not_le.mpr starts)
      · rw [if_neg starts, ih, and_iff_right (Nat.not_lt.mp starts)]

theorem isSome_shift?_iff : (shift? edits span).isSome ↔ Clear edits span := by
  rw [shift?, Option.isSome_map, isSome_shiftStart_iff]

/-- The loop goes on behind the first edits from the place that it has found with them. -/
theorem shiftStart_append (found : shiftStart span place front = some place') :
    shiftStart span place (front ++ back) = shiftStart span place' back := by
  induction front generalizing place with
  | nil =>
    cases found
    rfl
  | cons e front ih =>
    rw [shiftStart] at found
    rw [List.cons_append, shiftStart]
    by_cases stops : e.span.stop ≤ span.start
    · rw [if_pos stops] at found ⊢
      exact ih found
    · rw [if_neg stops] at found ⊢
      by_cases starts : e.span.start < span.stop
      · rw [if_pos starts] at found
        cases found
      · rw [if_neg starts] at found ⊢
        exact ih found

/-- The order in which the edits are listed does not matter. -/
theorem shift?_perm (same : edits.Perm other) : shift? edits span = shift? other span := by
  by_cases clear : Clear edits span
  · have clear' : Clear other span := fun e member => clear e (same.mem_iff.mpr member)
    rw [shift?, shift?, shiftStart_eq span _ clear, shiftStart_eq span _ clear', growthBefore_perm same]
  · have clear' : ¬Clear other span := fun sides => clear fun e member => sides e (same.mem_iff.mp member)
    rw [← isSome_shift?_iff, Option.not_isSome_iff_eq_none] at clear clear'
    rw [clear, clear']

theorem Apart.sublist (apart : Apart edits length) (part : other.Sublist edits) : Apart other length where
  nonempty e member := apart.nonempty e (part.subset member)
  within e member := apart.within e (part.subset member)
  disjoint := apart.disjoint.sublist part

theorem InOrder.pairwise (order : InOrder length position edits) :
    edits.Pairwise fun a b => a.span.start < b.span.start := by
  induction edits generalizing position with
  | nil => exact .nil
  | cons e edits ih =>
    obtain ⟨_, nonempty, rest⟩ := order
    refine .cons (fun f member => ?_) (ih rest)
    have := rest.le_start member
    omega

/-- There is only one order of edits that lie apart. -/
theorem sorted_eq (apart : Apart edits length) (same : other.Perm edits)
    (order : other.Pairwise fun a b => a.span.start ≤ b.span.start) : sorted edits = other := by
  have strict :=
    (inOrder_of_pairwise (apart.perm same.symm) (fun _ _ => Nat.zero_le _) (Nat.zero_le _) order).pairwise
  exact ((sorted_perm edits).trans same.symm).eq_of_pairwise
    (fun a b _ _ less more => absurd less (Nat.lt_asymm more))
    apart.inOrder.pairwise strict

theorem applyAll_perm (apart : Apart edits length) (same : edits.Perm other) :
    applyAll edits text = applyAll other text := by
  rw [applyAll, applyAll, sorted_eq apart ((sorted_perm other).trans same.symm) (pairwise_sorted other)]

/-- What stands before the first edit stays. -/
theorem applyFrom_skip (order : InOrder text.length p edits) (le : position ≤ p) :
    applyFrom position edits (text.drop position) = (text.drop position).take (p - position) ++
        applyFrom p edits (text.drop p) := by
  have rest : text.drop p = (text.drop position).drop (p - position) := by
    rw [List.drop_drop]
    congr 1
    omega
  cases edits with
  | nil => rw [applyFrom, applyFrom, rest, List.take_append_drop]
  | cons e edits =>
    obtain ⟨lower, nonempty, later⟩ := order
    have cut : (text.drop p).drop (e.span.stop - p) = (text.drop position).drop (e.span.stop - position) := by
      rw [List.drop_drop, List.drop_drop]
      congr 1
      omega
    rw [applyFrom_cons ⟨Nat.le_trans le lower, nonempty, later⟩, applyFrom_cons ⟨lower, nonempty, later⟩, cut, rest,
      show e.span.start - position = p - position + (e.span.start - p) by omega, List.take_add]
    simp only [List.append_assoc]

/-- Edits up to a place leave what stands behind it to the other edits. -/
theorem applyFrom_append (first : InOrder p position front) (second : InOrder text.length p back) :
    applyFrom position (front ++ back) (text.drop position) =
      applyFrom position front ((text.take p).drop position) ++ applyFrom p back (text.drop p) := by
  induction front generalizing position with
  | nil =>
    rw [List.nil_append, applyFrom_skip second first, applyFrom, List.drop_take]
  | cons e front ih =>
    obtain ⟨lower, nonempty, rest⟩ := first
    have le := rest.le_length
    have drop (l : List Char) : (l.drop position).drop (e.span.stop - position) = l.drop e.span.stop := by
      rw [List.drop_drop]
      congr 1
      omega
    have take : ((text.take p).drop position).take (e.span.start - position) = (text.drop position).take
        (e.span.start - position) := by
      rw [List.drop_take, List.take_take, Nat.min_eq_left (by omega)]
    rw [List.cons_append, applyFrom, if_neg (Nat.not_lt.mpr lower), applyFrom, if_neg (Nat.not_lt.mpr lower),
      drop, drop, ih rest, take]
    simp only [List.append_assoc]

theorem applyFrom_zero_append (first : InOrder p 0 front) (second : InOrder text.length p back) :
    applyFrom 0 (front ++ back) text = applyFrom 0 front (text.take p) ++ applyFrom p back (text.drop p) := by
  have cut : applyFrom 0 (front ++ back) (text.drop 0) = applyFrom 0 front ((text.take p).drop 0) ++
      applyFrom p back (text.drop p) :=
    applyFrom_append first second
  rwa [List.drop_zero, List.drop_zero] at cut

/-- A text grows by what its edits put in less what they take away. -/
theorem length_applyFrom (order : InOrder text.length position edits) :
    ((applyFrom position edits (text.drop position)).length : Int) =
        text.length - position + (edits.map growth).sum := by
  induction edits generalizing position with
  | nil =>
    have bound : position ≤ text.length := order
    rw [applyFrom, List.length_drop, List.map_nil, List.sum_nil]
    omega
  | cons e edits ih =>
    have cut := applyFrom_cons order (text.drop position)
    obtain ⟨lower, nonempty, rest⟩ := order
    have bound := rest.le_length
    have found := ih rest
    rw [List.drop_drop, show position + (e.span.stop - position) = e.span.stop by omega] at cut
    rw [cut, List.map_cons, List.sum_cons, growth, Span.length]
    simp only [List.length_append, List.length_take, List.length_drop]
    omega

/-- The edits on both sides of a span, in order. -/
theorem sorted_around (apart : Apart edits length) (order : span.start ≤ span.stop) (clear : Clear edits span) :
    sorted edits = sorted (before edits span.start) ++ sorted (behind edits span.stop) := by
  have sides : behind edits span.stop = edits.filter fun e => !decide (e.span.stop ≤ span.start) := by
    refine List.filter_congr fun e member => ?_
    have nonempty := apart.nonempty e member
    have side := clear e member
    rw [← decide_not, decide_eq_decide]
    omega
  have perm : (sorted (before edits span.start) ++ sorted (behind edits span.stop)).Perm edits := by
    refine ((sorted_perm _).append (sorted_perm _)).trans ?_
    rw [sides]
    exact List.filter_append_perm _ edits
  refine sorted_eq apart perm (List.pairwise_append.mpr
    ⟨pairwise_sorted _, pairwise_sorted _, fun a inFront b inBack => ?_⟩)
  have stops := (List.mem_filter.mp ((sorted_perm _).mem_iff.mp inFront)).2
  have starts := (List.mem_filter.mp ((sorted_perm _).mem_iff.mp inBack)).2
  have nonempty := apart.nonempty a (List.mem_filter.mp ((sorted_perm _).mem_iff.mp inFront)).1
  simp only [decide_eq_true_eq] at stops starts
  omega

theorem Apart.before (apart : Apart edits length) (p : Nat) : Apart (before edits p) p where
  nonempty e member := apart.nonempty e (List.mem_filter.mp member).1
  within _ member := of_decide_eq_true (List.mem_filter.mp member).2
  disjoint := apart.disjoint.sublist List.filter_sublist

theorem Apart.inOrder_behind (apart : Apart edits length) (bound : p ≤ length) :
    InOrder length p (sorted (behind edits p)) := by
  have part := (apart.sublist (List.filter_sublist (p := fun e => p ≤ e.span.start))).perm (sorted_perm _).symm
  have starts : ∀ e ∈ sorted (behind edits p), p ≤ e.span.start := fun _ member =>
    of_decide_eq_true (List.mem_filter.mp ((sorted_perm _).mem_iff.mp member)).2
  exact inOrder_of_pairwise part starts bound (pairwise_sorted _)

/-- Edits that do not meet a span are made before and behind it, and it stays between. -/
theorem applyAll_around (apart : Apart edits text.length) (within : span.IsWithin text.length)
    (clear : Clear edits span) :
    applyAll edits text = applyAll (before edits span.start) (text.take span.start) ++ span.slice text ++
      applyFrom span.stop (sorted (behind edits span.stop)) (text.drop span.stop) := by
  obtain ⟨order, bound⟩ := within
  have second := apart.inOrder_behind bound
  have fromStart : InOrder text.length span.start (sorted (behind edits span.stop)) := by
    cases eq : sorted (behind edits span.stop) with
    | nil => exact Nat.le_trans order bound
    | cons e rest =>
      rw [eq] at second
      exact ⟨Nat.le_trans order second.1, second.2⟩
  rw [applyAll, sorted_around apart order clear, applyFrom_zero_append (apart.before span.start).inOrder fromStart,
    applyFrom_skip second order, ← List.append_assoc]
  rfl

/-- The edited text before a place is as long as the place says, with what the edits before it
put in and take away. -/
theorem length_before (apart : Apart edits length) (bound : p ≤ text.length) :
    ((applyAll (before edits p) (text.take p)).length : Int) = p + growthBefore edits p := by
  have cut : (text.take p).length = p := List.length_take_of_le bound
  have order : InOrder (text.take p).length 0 (sorted (before edits p)) := by
    rw [cut]
    exact (apart.before p).inOrder
  have length := length_applyFrom order
  rw [List.drop_zero, cut, ((sorted_perm _).map growth).sum_eq] at length
  rw [applyAll, length, growthBefore, before]
  omega

/-- A span that no edit meets moves to where the edited text before it ends. -/
theorem shift?_eq_length (apart : Apart edits length) (bound : span.start ≤ text.length) (clear : Clear edits span) :
    shift? edits span = some ⟨(applyAll (before edits span.start) (text.take span.start)).length,
      (applyAll (before edits span.start) (text.take span.start)).length + span.length⟩ := by
  rw [shift?, shiftStart_eq span _ clear, ← length_before apart bound, Option.map_some, Int.toNat_natCast]

/-- The loop over the edits never leads before the beginning of the text. -/
theorem shiftStart_nonneg (apart : Apart edits length) (bound : span.start ≤ text.length)
    (found : shiftStart span span.start edits = some place) : 0 ≤ place := by
  have clear : Clear edits span := isSome_shiftStart_iff.mp (Option.isSome_of_eq_some found)
  have here := shiftStart_eq span span.start clear
  rw [found, ← length_before apart bound] at here
  rw [Option.some.inj here]
  exact Int.natCast_nonneg _

/-- Whether a span of an edited text holds what another one held before. -/
structure Keeps (edits : List Edit) (text : List Char) (span moved : Span) : Prop where
  within : moved.IsWithin (applyAll edits text).length
  length : moved.length = span.length
  slice : moved.slice (applyAll edits text) = span.slice text

theorem keeps_of_shift? (apart : Apart edits text.length) (within : span.IsWithin text.length)
    (found : shift? edits span = some moved) : Keeps edits text span moved := by
  have clear : Clear edits span := isSome_shift?_iff.mp (Option.isSome_of_eq_some found)
  have around := applyAll_around apart within clear
  have whole := Span.length_slice within
  rw [shift?_eq_length apart (Nat.le_trans within.order within.bound) clear] at found
  obtain rfl := Option.some.inj found
  refine ⟨⟨Nat.le_add_right _ _, ?_⟩, Nat.add_sub_cancel_left _ _, ?_⟩
  · rw [around, List.length_append, List.length_append, whole]
    exact Nat.le_add_right _ _
  · rw [Span.slice, Span.length, around, List.append_assoc, List.drop_left, Nat.add_sub_cancel_left,
      ← whole, List.take_left]

/-- The edits up to the end of a span that none of them meets are those before it. -/
theorem growthBefore_stop (apart : Apart edits length) (order : span.start ≤ span.stop) (clear : Clear edits span) :
    growthBefore edits span.stop = growthBefore edits span.start := by
  unfold growthBefore
  congr 2
  refine List.filter_congr fun e member => ?_
  have nonempty := apart.nonempty e member
  have side := clear e member
  rw [decide_eq_decide]
  omega

/-- Between two places that no edit stands over, a text shrinks by no more than what stands there. -/
theorem place_le_place {q : Nat} (apart : Apart edits text.length) (le : p ≤ q) (bound : q ≤ text.length)
    (clear : Clear edits ⟨p, p⟩) : (p : Int) + growthBefore edits p ≤ q + growthBefore edits q := by
  have cut : (text.take q).length = q := List.length_take_of_le bound
  have apart' : Apart (before edits q) (text.take q).length := cut.symm ▸ apart.before q
  have clear' : Clear (before edits q) ⟨p, p⟩ := fun e member => clear e (List.mem_filter.mp member).1
  have around := applyAll_around apart' ⟨Nat.le_refl p, cut.symm ▸ le⟩ clear'
  have same : before (before edits q) p = before edits p := by
    rw [before, before, before, List.filter_filter]
    refine List.filter_congr fun e _ => ?_
    rw [← Bool.decide_and, decide_eq_decide]
    omega
  have length := length_before apart bound
  rw [around, same, List.take_take, Nat.min_eq_left le] at length
  rw [← length_before apart (Nat.le_trans le bound), ← length]
  simp only [List.length_append]
  omega

/-- Spans that stand in order still do where they have moved to. -/
theorem shift?_mono {after moved' : Span} (apart : Apart edits text.length) (within : span.IsWithin text.length)
    (within' : after.IsWithin text.length) (order : span.stop ≤ after.start) (found : shift? edits span = some moved)
    (found' : shift? edits after = some moved') : moved.stop ≤ moved'.start := by
  have clear : Clear edits span := isSome_shift?_iff.mp (Option.isSome_of_eq_some found)
  have clear' : Clear edits after := isSome_shift?_iff.mp (Option.isSome_of_eq_some found')
  have bound := Nat.le_trans within'.order within'.bound
  have first := Nat.le_trans within.order within.bound
  rw [shift?_eq_length apart first clear] at found
  rw [shift?_eq_length apart bound clear'] at found'
  obtain rfl := Option.some.inj found
  obtain rfl := Option.some.inj found'
  have start := length_before apart first
  have start' := length_before apart bound
  have sameGrowth := growthBefore_stop apart within.order clear
  have le := place_le_place apart order bound fun e member => by
    have nonempty := apart.nonempty e member
    have side := clear e member
    have side' := clear' e member
    have := within.order
    have := within'.order
    simp only
    omega
  have := within.order
  simp only [Span.length]
  omega

end Edit

end ModuleBundler.Text
