import ModuleBundler.Proofs.Script.Edits
import ModuleBundler.Proofs.Text.Units

namespace ModuleBundler

namespace Text.Edit

variable {length position : Nat} {e : Edit} {edits : List Edit} {text : List Char}

theorem overlapsFrom_eq_nil (order : InOrder length position edits) : overlapsFrom position edits = [] := by
  induction edits generalizing position with
  | nil => rfl
  | cons e edits ih =>
    obtain ⟨lower, _, rest⟩ := order
    rw [overlapsFrom, if_neg (Nat.not_lt.mpr lower), ih rest]

/-- Of edits that lie apart, none is left out. -/
theorem overlaps_eq_nil (apart : Apart edits length) : overlaps edits = [] := overlapsFrom_eq_nil apart.inOrder

/-- The edits on both sides of one of them, in order. -/
theorem sorted_at (apart : Apart edits length) (member : e ∈ edits) :
    sorted edits = sorted (before edits e.span.start) ++ e :: sorted (behind edits e.span.stop) := by
  have nonempty := apart.nonempty e member
  obtain ⟨front, back, rfl⟩ := List.append_of_mem member
  have others : (e :: (front ++ back)).Perm (front ++ e :: back) := List.perm_middle.symm
  obtain ⟨clear, _⟩ := List.pairwise_cons.mp (apart.perm others.symm).disjoint
  have apart' : Apart (front ++ back) length :=
    apart.sublist ((List.Sublist.refl front).append (List.sublist_cons_self e back))
  have split := sorted_around apart' (Nat.le_of_lt nonempty) fun f other => (clear f other).symm
  have first : before (front ++ e :: back) e.span.start = before (front ++ back) e.span.start := by
    simp only [before, List.filter_append]
    rw [List.filter_cons_of_neg (by simpa using nonempty)]
  have second : behind (front ++ e :: back) e.span.stop = behind (front ++ back) e.span.stop := by
    simp only [behind, List.filter_append]
    rw [List.filter_cons_of_neg (by simpa using nonempty)]
  rw [first, second]
  have perm : (sorted (before (front ++ back) e.span.start) ++ e :: sorted (behind (front ++ back) e.span.stop)).Perm
      (front ++ e :: back) := by
    refine List.perm_middle.trans (List.Perm.trans ?_ others)
    rw [← split]
    exact (sorted_perm _).cons e
  have order := pairwise_sorted (front ++ back)
  rw [split] at order
  obtain ⟨order, order', across⟩ := List.pairwise_append.mp order
  refine sorted_eq apart perm (List.pairwise_append.mpr ⟨order, .cons ?_ order', fun f inFront g inBack => ?_⟩)
  · intro f inBack
    have starts := of_decide_eq_true (List.mem_filter.mp ((sorted_perm _).mem_iff.mp inBack)).2
    omega
  · rcases List.mem_cons.mp inBack with rfl | inBack
    · have inside := (List.mem_filter.mp ((sorted_perm _).mem_iff.mp inFront))
      have stops := of_decide_eq_true inside.2
      have := apart'.nonempty f inside.1
      omega
    · exact across f inFront g inBack

/-- Each of some edits that lie apart is made, between what the others make of the text before it and behind it. -/
theorem applyAll_at (apart : Apart edits text.length) (member : e ∈ edits) :
    applyAll edits text = applyAll (before edits e.span.start) (text.take e.span.start) ++ e.replacement ++
      applyFrom e.span.stop (sorted (behind edits e.span.stop)) (text.drop e.span.stop) := by
  have nonempty := apart.nonempty e member
  have within := apart.within e member
  have first := (apart.before e.span.start).inOrder
  have second : InOrder text.length e.span.start (e :: sorted (behind edits e.span.stop)) :=
    ⟨Nat.le_refl _, nonempty, apart.inOrder_behind within⟩
  have cut := applyFrom_zero_append first second
  rw [applyFrom_cons second, Nat.sub_self, List.take_zero, List.nil_append, List.drop_drop,
    Nat.add_sub_cancel' (Nat.le_of_lt nonempty), ← List.append_assoc] at cut
  rw [applyAll, sorted_at apart member, cut, applyAll]

end Text.Edit

namespace Script.Module

open Text (Edit octets)

variable {m : Module} {source : List Char}

/-- The edits of a module lie in its text and apart from each other, in characters and so in bytes. None of them is
left out: each stands in the edited text between what the edits before it and those behind it make of the rest. -/
theorem all_edits_made (parsed : parse? source = some m) :
    Edit.Apart m.edits m.text.length ∧
      Edit.Apart (m.edits.map (Edit.coded octets m.text)) (m.text.flatMap octets).length ∧
      Edit.overlaps m.edits = [] ∧
      ∀ e ∈ m.edits, m.edited = Edit.applyAll (Edit.before m.edits e.span.start) (m.text.take e.span.start) ++
        e.replacement ++
        Edit.applyFrom e.span.stop (Edit.sorted (Edit.behind m.edits e.span.stop)) (m.text.drop e.span.stop) := by
  have apart := apart_edits (isRead_of_parse parsed)
  exact ⟨apart, apart.coded Text.octets_ne_nil, Edit.overlaps_eq_nil apart,
    fun e member => Edit.applyAll_at apart member⟩

/-- An import with its semicolon and the white space up to a keyword, and a call that hands all
arguments on behind it. -/
theorem all_edits_made_of_three : ∃ m, parse? "import 'a' ; export let x = super(...arguments)".toList = some m ∧
    m.edits.map Edit.span = [⟨0, 13⟩, ⟨13, 20⟩, ⟨28, 47⟩] ∧ Edit.Apart m.edits m.text.length ∧
        Edit.overlaps m.edits = [] := by
  have read : (parse? "import 'a' ; export let x = super(...arguments)".toList).map (fun m => m.edits.map Edit.span) =
      some [⟨0, 13⟩, ⟨13, 20⟩, ⟨28, 47⟩] := by
    decide +kernel
  obtain ⟨m, parsed, edits⟩ := Option.map_eq_some_iff.mp read
  obtain ⟨apart, _, noneLeft, _⟩ := all_edits_made parsed
  exact ⟨m, parsed, edits, apart, noneLeft⟩

end Script.Module

end ModuleBundler
