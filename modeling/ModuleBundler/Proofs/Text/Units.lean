import ModuleBundler.Proofs.Text.Shift

/-!
Places counted in units.

Where each character is written with some units, as with the bytes of UTF-8, a place among the characters is a
place among the units. Edits do to the units what they do to the characters (`applyAll_coded`), and a span moves
to the same place in both (`shift?_coded`). So what is known of spans of characters (`shift_agrees`) holds of
spans of bytes.
-/

namespace ModuleBundler.Text

/-- The number of units before a place. -/
def unitsBefore (code : Char → List Char) (text : List Char) (p : Nat) : Nat := ((text.take p).flatMap code).length

/-- A span of characters among the units. -/
def Span.coded (code : Char → List Char) (text : List Char) (span : Span) : Span :=
  ⟨unitsBefore code text span.start, unitsBefore code text span.stop⟩

/-- An edit of characters as one of the units. -/
def Edit.coded (code : Char → List Char) (text : List Char) (e : Edit) : Edit :=
  ⟨e.span.coded code text, e.replacement.flatMap code⟩

/-- The bytes of a character, with a character in the place of each. -/
def octets (c : Char) : List Char := (String.utf8EncodeChar c).map fun b => Char.ofNat b.toNat

theorem octets_ne_nil (c : Char) : octets c ≠ [] := by
  rw [octets, Ne, List.map_eq_nil_iff]
  exact String.utf8EncodeChar_ne_nil

section Units

variable {code : Char → List Char} {text front back : List Char} {p q length : Nat}
  {span moved : Span} {edits : List Edit}

theorem take_coded (code : Char → List Char) (text : List Char) (p : Nat) :
    (text.flatMap code).take (unitsBefore code text p) = (text.take p).flatMap code := by
  conv_lhs => rw [← List.take_append_drop p text, List.flatMap_append]
  rw [unitsBefore, List.take_append_drop, List.take_left]

theorem drop_coded (code : Char → List Char) (text : List Char) (p : Nat) :
    (text.flatMap code).drop (unitsBefore code text p) = (text.drop p).flatMap code := by
  conv_lhs => rw [← List.take_append_drop p text, List.flatMap_append]
  rw [unitsBefore, List.take_append_drop, List.drop_left]

theorem unitsBefore_zero : unitsBefore code text 0 = 0 := rfl

theorem unitsBefore_length (code : Char → List Char) (text : List Char) :
    unitsBefore code text text.length = (text.flatMap code).length := by
  rw [unitsBefore, List.take_length]

/-- What stands before a place has as many units as what follows it in the text says. -/
theorem unitsBefore_take (le : p ≤ q) : unitsBefore code (text.take q) p = unitsBefore code text p := by
  rw [unitsBefore, unitsBefore, List.take_take, Nat.min_eq_left le]

theorem unitsBefore_add (code : Char → List Char) (text : List Char) (le : p ≤ q) :
    unitsBefore code text q = unitsBefore code text p + (((text.drop p).take (q - p)).flatMap code).length := by
  have cut : text.take q = text.take p ++ (text.drop p).take (q - p) := by
    rw [← List.take_add, Nat.add_sub_cancel' le]
  rw [unitsBefore, cut, List.flatMap_append, List.length_append, unitsBefore]

theorem unitsBefore_mono (le : p ≤ q) : unitsBefore code text p ≤ unitsBefore code text q := by
  rw [unitsBefore_add code text le]
  exact Nat.le_add_right _ _

theorem unitsBefore_append (code : Char → List Char) (front back : List Char) :
    unitsBefore code (front ++ back) front.length = (front.flatMap code).length := by
  rw [unitsBefore, List.take_left]

/-- The units of a span are those of its characters. -/
theorem slice_coded (code : Char → List Char) (text : List Char) (order : span.start ≤ span.stop) :
    (span.coded code text).slice (text.flatMap code) = (span.slice text).flatMap code := by
  have units := unitsBefore_add code text order
  have behind : span.slice text ++ text.drop span.stop = text.drop span.start := by
    rw [Span.slice, Span.length]
    conv_rhs => rw [← List.take_append_drop (span.stop - span.start) (text.drop span.start), List.drop_drop]
    rw [Nat.add_sub_cancel' order]
  rw [Span.slice, Span.length, Span.coded, drop_coded, ← behind, List.flatMap_append, units, Nat.add_sub_cancel_left]
  exact List.take_left

theorem length_coded (order : span.start ≤ span.stop) :
    (span.coded code text).length = ((span.slice text).flatMap code).length := by
  rw [Span.length, Span.coded, unitsBefore_add code text order, Nat.add_sub_cancel_left]
  rfl

variable (solid : ∀ c, code c ≠ [])
include solid

theorem unitsBefore_lt (less : p < q) (bound : q ≤ text.length) :
    unitsBefore code text p < unitsBefore code text q := by
  have next : unitsBefore code text p < unitsBefore code text (p + 1) := by
    have here : (text.drop p).take 1 = [text[p]] := by
      rw [List.drop_eq_getElem_cons (by omega), List.take_succ_cons, List.take_zero]
    rw [unitsBefore_add code text (Nat.le_succ p), Nat.succ_sub (Nat.le_refl p), Nat.sub_self, here,
      List.flatMap_singleton]
    have := List.length_pos_iff.mpr (solid text[p])
    omega
  exact Nat.lt_of_lt_of_le next (unitsBefore_mono less)

theorem unitsBefore_le_iff (bound : p ≤ text.length) :
    unitsBefore code text p ≤ unitsBefore code text q ↔ p ≤ q := by
  refine ⟨fun le => ?_, unitsBefore_mono⟩
  by_contra less
  have lt : unitsBefore code text q < unitsBefore code text p := unitsBefore_lt solid (Nat.lt_of_not_le less) bound
  omega

end Units

namespace Edit

variable {code : Char → List Char} {text : List Char} {position p : Nat} {span moved : Span} {edits : List Edit}

theorem map_coded_take (stops : ∀ e ∈ edits, e.span.start ≤ p ∧ e.span.stop ≤ p) :
    edits.map (coded code (text.take p)) = edits.map (coded code text) := by
  refine List.map_congr_left fun e member => ?_
  obtain ⟨starts, stops⟩ := stops e member
  rw [coded, coded, Span.coded, Span.coded, unitsBefore_take starts, unitsBefore_take stops]

section Solid

variable (solid : ∀ c, code c ≠ [])
include solid

theorem Apart.coded (apart : Apart edits text.length) :
    Apart (edits.map (coded code text)) (text.flatMap code).length where
  nonempty e member := by
    obtain ⟨e, inside, rfl⟩ := List.mem_map.mp member
    exact unitsBefore_lt solid (apart.nonempty e inside) (apart.within e inside)
  within e member := by
    obtain ⟨e, inside, rfl⟩ := List.mem_map.mp member
    rw [← unitsBefore_length]
    exact unitsBefore_mono (apart.within e inside)
  disjoint := List.pairwise_map.mpr (apart.disjoint.imp fun clear => clear.imp unitsBefore_mono unitsBefore_mono)

theorem sorted_coded (apart : Apart edits text.length) :
    sorted (edits.map (coded code text)) = (sorted edits).map (coded code text) := by
  refine sorted_eq (apart.coded solid) ((sorted_perm edits).map _) (List.pairwise_map.mpr ?_)
  exact (pairwise_sorted edits).imp unitsBefore_mono

theorem before_coded (apart : Apart edits text.length) :
    before (edits.map (coded code text)) (unitsBefore code text p) = (before edits p).map (coded code text) := by
  rw [before, before, List.filter_map]
  congr 1
  refine List.filter_congr fun e member => ?_
  simp only [Function.comp_apply, coded, Span.coded, unitsBefore_le_iff solid (apart.within e member)]

end Solid

theorem applyFrom_coded (code : Char → List Char) (order : InOrder text.length position edits) :
    applyFrom (unitsBefore code text position) (edits.map (coded code text)) ((text.drop position).flatMap code) =
      (applyFrom position edits (text.drop position)).flatMap code := by
  induction edits generalizing position with
  | nil => rw [List.map_nil, applyFrom, applyFrom]
  | cons e edits ih =>
    have cut := applyFrom_cons order (text.drop position)
    obtain ⟨lower, nonempty, rest⟩ := order
    have le : position ≤ e.span.stop := by omega
    have front :=
      slice_coded code text (show Span.start ⟨position, e.span.start⟩ ≤ Span.stop ⟨position, e.span.start⟩ from lower)
    have jump : ((text.drop position).flatMap code).drop
      (unitsBefore code text e.span.stop - unitsBefore code text position) =
        (text.drop e.span.stop).flatMap code := by
      rw [← drop_coded, ← drop_coded, List.drop_drop, Nat.add_sub_cancel' (unitsBefore_mono le)]
    have noSkip : ¬unitsBefore code text e.span.start < unitsBefore code text position :=
      Nat.not_lt.mpr (unitsBefore_mono lower)
    rw [Span.slice, Span.slice, Span.length, Span.length, Span.coded, drop_coded] at front
    rw [List.drop_drop, Nat.add_sub_cancel' le] at cut
    rw [cut, List.map_cons, applyFrom, coded, Span.coded, if_neg noSkip, jump, ih rest, front, List.flatMap_append,
      List.flatMap_append]

variable (solid : ∀ c, code c ≠ [])
include solid

/-- Edits do to the units of a text what they do to its characters. -/
theorem applyAll_coded (apart : Apart edits text.length) :
    applyAll (edits.map (coded code text)) (text.flatMap code) = (applyAll edits text).flatMap code := by
  have applied := applyFrom_coded code apart.inOrder
  rw [unitsBefore_zero, List.drop_zero] at applied
  rw [applyAll, sorted_coded solid apart, applied, applyAll]

/-- The edited text before a place has as many units as its characters say. -/
theorem applyAll_before_coded (apart : Apart edits text.length) (bound : p ≤ text.length) :
    applyAll (before (edits.map (coded code text)) (unitsBefore code text p))
      ((text.flatMap code).take (unitsBefore code text p)) =
      (applyAll (before edits p) (text.take p)).flatMap code := by
  have cut : (text.take p).length = p := List.length_take_of_le bound
  have apart' : Apart (before edits p) (text.take p).length := cut.symm ▸ apart.before p
  rw [← applyAll_coded solid apart', map_coded_take fun e member => ?_, before_coded solid apart, take_coded]
  have stops := (apart.before p).within e member
  have nonempty := (apart.before p).nonempty e member
  omega

/-- Counted in units, a span moves to the same place. -/
theorem shift?_coded (apart : Apart edits text.length) (within : span.IsWithin text.length) :
    shift? (edits.map (coded code text)) (span.coded code text) = (shift? edits span).map
        (Span.coded code (applyAll edits text)) := by
  have bound := Nat.le_trans within.order within.bound
  have clear : Clear (edits.map (coded code text)) (span.coded code text) ↔ Clear edits span := by
    unfold Clear
    rw [List.forall_mem_map]
    refine forall₂_congr fun e member => ?_
    simp only [coded, Span.coded, unitsBefore_le_iff solid (apart.within e member),
      unitsBefore_le_iff solid within.bound]
  by_cases unmet : Clear edits span
  · have unmet' := clear.mpr unmet
    have bound' : (span.coded code text).start ≤ (text.flatMap code).length :=
      unitsBefore_length code text ▸ unitsBefore_mono bound
    have around := applyAll_around apart within unmet
    have place := shift?_eq_length apart bound unmet
    have place' := shift?_eq_length (apart.coded solid) bound' unmet'
    have first := applyAll_before_coded solid apart bound
    have start := unitsBefore_append code (applyAll (before edits span.start) (text.take span.start))
      (span.slice text ++ applyFrom span.stop (sorted (behind edits span.stop)) (text.drop span.stop))
    have stop :=
      unitsBefore_append code (applyAll (before edits span.start) (text.take span.start) ++ span.slice text)
      (applyFrom span.stop (sorted (behind edits span.stop)) (text.drop span.stop))
    rw [← List.append_assoc, ← around] at start
    rw [← around, List.length_append, Span.length_slice within, List.flatMap_append, List.length_append] at stop
    rw [place', show (span.coded code text).start = unitsBefore code text span.start from rfl, first,
      length_coded within.order, place, Option.map_some, Span.coded, start, stop]
  · have met := unmet
    rw [← clear, ← isSome_shift?_iff, Option.not_isSome_iff_eq_none] at met
    rw [← isSome_shift?_iff, Option.not_isSome_iff_eq_none] at unmet
    rw [met, unmet, Option.map_none]

omit solid

/-- Edits of a text that lie apart, and a span of it: the span is refused exactly if an edit meets it. Otherwise
it moves to a span of the edited text that is as long and holds the same. On the way no place lies before the
text, and the edits may come in any order. Spans keep their order. Counted in bytes, texts, edits and spans are
treated alike. -/
theorem shift_agrees (apart : Apart edits text.length) :
    (∀ span, span.IsWithin text.length →
      ((∀ e ∈ edits, ¬e.Meets span) → ∃ moved, shift? edits span = some moved ∧ Keeps edits text span moved) ∧
        (shift? edits span = none ↔ ∃ e ∈ edits, e.Meets span) ∧
        (∀ front back place, edits = front ++ back → shiftStart span span.start front = some place →
          0 ≤ place ∧ shiftStart span span.start edits = shiftStart span place back)) ∧
      (∀ span after moved moved', span.IsWithin text.length → after.IsWithin text.length → span.stop ≤ after.start →
        shift? edits span = some moved → shift? edits after = some moved' → moved.stop ≤ moved'.start) ∧
      (∀ other, edits.Perm other → applyAll edits text = applyAll other text ∧ ∀ span,
        shift? edits span = shift? other span) ∧
      applyAll (edits.map (coded octets text)) (text.flatMap octets) = (applyAll edits text).flatMap octets ∧
      ∀ span, span.IsWithin text.length → shift? (edits.map (coded octets text)) (span.coded octets text) =
        (shift? edits span).map (Span.coded octets (applyAll edits text)) := by
  refine ⟨fun span within => ?_, fun span after moved moved' within within' => shift?_mono apart within within',
    fun other same => ?_, applyAll_coded octets_ne_nil apart, fun span => shift?_coded octets_ne_nil apart⟩
  · have clear := clear_iff apart within.order
    refine ⟨fun unmet => ?_, ?_, fun front back place split found => ?_⟩
    · obtain ⟨moved, found⟩ := Option.isSome_iff_exists.mp (isSome_shift?_iff.mpr (clear.mpr unmet))
      exact ⟨moved, found, keeps_of_shift? apart within found⟩
    · rw [← Option.not_isSome_iff_eq_none, isSome_shift?_iff, clear]
      push Not
      rfl
    · have first : Apart front text.length := apart.sublist (split ▸ List.sublist_append_left front back)
      exact ⟨shiftStart_nonneg first (Nat.le_trans within.order within.bound) found, split ▸ shiftStart_append found⟩
  · exact ⟨applyAll_perm apart same, fun span => shift?_perm same⟩

/-- Two edits that are listed against the order of the text, one that shrinks it and one that lets it grow. -/
theorem shift_agrees_between : Apart [⟨⟨4, 5⟩, "ee".toList⟩, remove 0 2] "abéde".toList.length ∧
    ∃ moved, shift? [⟨⟨4, 5⟩, "ee".toList⟩, remove 0 2] ⟨2, 4⟩ = some moved ∧
      Keeps [⟨⟨4, 5⟩, "ee".toList⟩, remove 0 2] "abéde".toList ⟨2, 4⟩ moved := by
  have apart : Apart [⟨⟨4, 5⟩, "ee".toList⟩, remove 0 2] "abéde".toList.length := ⟨by decide, by decide, by decide⟩
  refine ⟨apart, ((shift_agrees apart).1 ⟨2, 4⟩ ⟨by decide, by decide⟩).1 fun e member met => ?_⟩
  have clear : Clear [⟨⟨4, 5⟩, "ee".toList⟩, remove 0 2] ⟨2, 4⟩ := by unfold Clear; decide
  exact (clear_iff apart (by decide)).mp clear e member met

end Edit

end ModuleBundler.Text
