import ModuleBundler.Proofs.Script.Edits

namespace ModuleBundler.Script

open Text (Edit Span)
open Text.Edit (Free Covers place)

theorem adjacent_append {α : Type} {a b front back : List α} {v w : α} (eq : a ++ b = front ++ v :: w :: back) :
    w ∈ a ∨ (v ∈ a ∧ w ∈ b.head?) ∨ v ∈ b := by
  rcases List.append_eq_append_iff.mp eq with ⟨rest, _, same⟩ | ⟨rest, same, eq⟩
  · exact Or.inr (Or.inr (by simp [same]))
  · match rest, eq with
    | [], eq =>
      rw [List.nil_append] at eq
      exact Or.inr (Or.inr (eq ▸ List.mem_cons_self))
    | [x], eq =>
      obtain ⟨rfl, rfl⟩ := List.cons.inj eq
      exact Or.inr (Or.inl ⟨by simp [same], rfl⟩)
    | x :: y :: rest, eq =>
      cases eq
      exact Or.inl (by simp [same])

namespace Module

/-- Whether a token lies in an edit. -/
def LiesIn (t : Token) (e : Edit) : Prop := e.span.start ≤ t.start ∧ t.stop ≤ e.span.stop

/-- Whether a token lies in no edit of a module. -/
def IsSpared (m : Module) (t : Token) : Prop := ∀ e ∈ m.edits, ¬LiesIn t e

/-- Whether no edit of a module meets a token. -/
def IsClear (m : Module) (t : Token) : Prop := ∀ e ∈ m.edits, e.span.stop ≤ t.start ∨ t.stop ≤ e.span.start

variable {m : Module} {e : Edit} {t v w : Token} {front taken back : List Token} {p k lo hi : Nat}

theorem first_of_cuts (cuts : Cuts m e front taken back) :
    ∃ first rest, taken = first :: rest ∧ first.start = e.span.start ∧
        m.tokens = front ++ first :: (rest ++ back) := by
  obtain ⟨first, head, start⟩ := cuts.takes.starts
  obtain ⟨rest, rfl⟩ := List.head?_eq_some_iff.mp (Option.mem_def.mp head)
  exact ⟨first, rest, rfl, start, by rw [cuts.eq, List.append_assoc, List.cons_append]⟩

theorem stop_le_start_of_cuts (isRead : m.IsRead) (cuts : Cuts m e front taken back) (earlier : t ∈ front) :
    t.stop ≤ e.span.start := by
  obtain ⟨first, rest, _, start, eq⟩ := first_of_cuts cuts
  exact start ▸ isRead.reads.stop_le eq earlier

theorem start_le_start_of_cuts (isRead : m.IsRead) (cuts : Cuts m e front taken back) (inside : t ∈ taken) :
    e.span.start ≤ t.start := by
  obtain ⟨first, rest, rfl, start, eq⟩ := first_of_cuts cuts
  rcases List.mem_cons.mp inside with rfl | later
  · omega
  · have behind := isRead.reads.le_start eq (List.mem_append_left _ later)
    have order := (isRead.reads.within (show first ∈ m.tokens by simp [eq])).1
    omega

theorem isChunk_of_empty (isRead : m.IsRead) (member : t ∈ m.tokens) (isEmpty : t.stop ≤ t.start) :
    t.lexeme.isChunk = true := by
  by_contra noChunk
  have pos := (isRead.reads.isText member (by simpa using noChunk)).2.pos
  omega

/-- A token lies in an edit exactly if the edit takes it. So none only stands at the edge of an
edit, an empty one either. -/
theorem liesIn_iff_mem (isRead : m.IsRead) (cuts : Cuts m e front taken back) (member : t ∈ m.tokens) :
    LiesIn t e ↔ t ∈ taken := by
  constructor
  · rintro ⟨lower, upper⟩
    have order := (isRead.reads.within member).1
    have inside := member
    rw [cuts.eq, List.mem_append, List.mem_append] at inside
    rcases inside with (earlier | inside) | later
    · -- what closes an empty piece begins where it does, and no edit begins with that
      exfalso
      have before := stop_le_start_of_cuts isRead cuts earlier
      obtain ⟨front', between, rfl⟩ := List.append_of_mem earlier
      obtain ⟨first, rest, rfl, start, eq⟩ := first_of_cuts cuts
      rw [List.append_assoc, List.cons_append] at eq
      rcases isRead.reads.behind Lexer.Situation.nested_initial eq
        with ⟨_, ⟨closer, more, same, begins, closes⟩, _⟩ | ⟨noChunk, _⟩
      · cases between with
        | nil =>
          cases same
          rcases cuts.opens first rfl with h | h | h <;> rcases closes with h' | h' <;> rw [h'] at h <;> cases h
        | cons next between =>
          cases same
          have noChunk : closer.lexeme.isChunk = false := by rcases closes with h | h <;> rw [h] <;> rfl
          have ends := stop_le_start_of_cuts isRead cuts (show closer ∈ front' ++ t :: closer :: between by simp)
          have pos := (isRead.reads.isText (show closer ∈ m.tokens by simp [eq]) noChunk).2.pos
          omega
      · rw [isChunk_of_empty isRead member (by omega)] at noChunk
        cases noChunk
    · exact inside
    · -- what leads into an empty piece stands before it, and behind an edit there is more before a piece begins
      exfalso
      have behind := cuts.takes.clear t later
      have isChunk := isChunk_of_empty isRead member (by omega)
      obtain ⟨between, back', rfl⟩ := List.append_of_mem later
      have eq : m.tokens = (front ++ taken ++ between) ++ t :: back' := by rw [cuts.eq, List.append_assoc _ between]
      obtain ⟨before, v, same, leads, begins⟩ :=
        isRead.reads.before_chunk Lexer.Situation.nested_initial rfl eq isChunk
      rcases List.eq_nil_or_concat between with rfl | ⟨between, w, rfl⟩
      · rw [cuts.takes.noChunk t rfl] at isChunk
        cases isChunk
      · rw [List.concat_eq_append, ← List.append_assoc] at same
        obtain ⟨_, last⟩ := List.append_inj' same rfl
        cases last
        have noChunk : v.lexeme.isChunk = false := by rcases leads with h | h | h <;> rw [h] <;> rfl
        have pos := (isRead.reads.isText (show v ∈ m.tokens by simp [eq]) noChunk).2.pos
        have := cuts.takes.clear v (by simp)
        omega
  · exact fun inside => ⟨start_le_start_of_cuts isRead cuts inside, cuts.takes.covered t inside⟩

/-- An edit takes a token whole or not at all. -/
theorem whole_or_clear (isRead : m.IsRead) (edit : e ∈ m.edits) (member : t ∈ m.tokens) :
    LiesIn t e ∨ e.span.stop ≤ t.start ∨ t.stop ≤ e.span.start := by
  obtain ⟨front, taken, back, cuts⟩ := cuts_of_mem_edits isRead edit
  have inside := member
  rw [cuts.eq, List.mem_append, List.mem_append] at inside
  rcases inside with (earlier | taken) | later
  · exact Or.inr (Or.inr (stop_le_start_of_cuts isRead cuts earlier))
  · exact Or.inl ((liesIn_iff_mem isRead cuts member).mpr taken)
  · exact Or.inr (Or.inl (cuts.takes.clear t later))

theorem IsSpared.isClear (spared : m.IsSpared t) (isRead : m.IsRead) (member : t ∈ m.tokens) : m.IsClear t :=
  fun e edit => (whole_or_clear isRead edit member).resolve_left (spared e edit)

theorem IsClear.isSpared (clear : m.IsClear t) (nonempty : t.start < t.stop) : m.IsSpared t := by
  rintro e edit ⟨lower, upper⟩
  rcases clear e edit with behind | before <;> omega

/-- A token is left alone if one of its characters is. -/
theorem isClear_of_free (isRead : m.IsRead) (member : t ∈ m.tokens) (free : Free m.edits p) (lower : t.start ≤ p)
    (upper : p < t.stop) : m.IsClear t := by
  intro e edit
  refine (whole_or_clear isRead edit member).resolve_left fun ⟨begins, ends⟩ => free e edit ?_
  exact ⟨by omega, by omega⟩

theorem IsClear.free (clear : m.IsClear t) (lower : t.start ≤ p) (upper : p < t.stop) : Free m.edits p := by
  intro e edit covered
  unfold Covers at covered
  rcases clear e edit with behind | before <;> omega

/-- A literal that is left alone is one of the literals of the edited text. -/
theorem mem_editedLiterals (isRead : m.IsRead) (member : t ∈ m.tokens) (quoted : t.lexeme.isQuoted = true)
    (clear : m.IsClear t) (nonempty : t.start < t.stop) :
    ⟨place m.edits t.start, place m.edits t.start + (t.stop - t.start)⟩ ∈ m.editedLiterals := by
  refine List.mem_filterMap.mpr ⟨⟨t.start, t.stop⟩, ?_, ?_⟩
  · exact List.mem_map.mpr ⟨t, List.mem_filter.mpr ⟨member, quoted⟩, rfl⟩
  · exact Text.Edit.shift?_eq (apart_edits isRead) (clear.free (Nat.le_refl _) nonempty) clear

/-- With a piece of a template the token before it is left alone. -/
theorem IsSpared.before_chunk (spared : m.IsSpared w) (isRead : m.IsRead) (eq : m.tokens = front ++ v :: w :: back)
    (isChunk : w.lexeme.isChunk = true) : m.IsClear v := by
  intro e edit
  obtain ⟨before, taken, after, cuts⟩ := cuts_of_mem_edits isRead edit
  have order := isRead.reads.le_start eq List.mem_cons_self
  rcases adjacent_append (cuts.eq.symm.trans eq) with inside | ⟨_, next⟩ | behind
  · rcases List.mem_append.mp inside with earlier | covered
    · have := stop_le_start_of_cuts isRead cuts earlier
      have := (isRead.reads.within (show w ∈ m.tokens by simp [eq])).1
      omega
    · exact absurd ((liesIn_iff_mem isRead cuts (by simp [eq])).mpr covered) (spared e edit)
  · rw [cuts.takes.noChunk w next] at isChunk
    cases isChunk
  · exact Or.inl (cuts.takes.clear v behind)

/-- With a piece of a template the token behind it is left alone. -/
theorem IsSpared.behind_chunk (spared : m.IsSpared v) (isRead : m.IsRead) (eq : m.tokens = front ++ v :: w :: back)
    (noOpening : ¬OpensEdit w.lexeme) : m.IsClear w := by
  intro e edit
  obtain ⟨before, taken, after, cuts⟩ := cuts_of_mem_edits isRead edit
  have order := isRead.reads.le_start eq List.mem_cons_self
  have split := cuts.eq
  rw [List.append_assoc] at split
  rcases adjacent_append (split.symm.trans eq) with earlier | ⟨_, next⟩ | inside
  · exact Or.inr (stop_le_start_of_cuts isRead cuts earlier)
  · obtain ⟨first, rest, rfl, _⟩ := first_of_cuts cuts
    cases next
    exact absurd (cuts.opens w rfl) noOpening
  · rcases List.mem_append.mp inside with covered | later
    · exact absurd ((liesIn_iff_mem isRead cuts (by simp [eq])).mpr covered) (spared e edit)
    · have := cuts.takes.clear v later
      have := (isRead.reads.within (show v ∈ m.tokens by simp [eq])).1
      omega

section Gap

variable (isRead : m.IsRead) (gap : Lexer.IsGap m.text m.tokens lo hi)
include isRead gap

/-- No edit begins between two tokens. -/
theorem lt_or_le_start (edit : e ∈ m.edits) : e.span.start < lo ∨ hi ≤ e.span.start := by
  obtain ⟨front, taken, back, cuts⟩ := cuts_of_mem_edits isRead edit
  obtain ⟨first, rest, rfl, start, eq⟩ := first_of_cuts cuts
  have member : first ∈ m.tokens := by simp [eq]
  have nonempty := (isRead.reads.isText member (noChunk_of_opens (cuts.opens first rfl))).2.pos
  rcases gap.clear first member with before | after <;> omega

/-- What stands between two tokens is left alone from some place on. -/
theorem free_of_gap (free : Free m.edits p) (lower : lo ≤ p) (behind : p ≤ k) (upper : k < hi) : Free m.edits k := by
  intro e edit covered
  have uncovered := free e edit
  unfold Covers at covered uncovered
  rcases lt_or_le_start isRead gap edit with before | after <;> omega

/-- Where an edit stops between two tokens, it stops with white space. -/
theorem isBlank_of_covered (free : Free m.edits (p + 1)) (lower : lo ≤ p) (upper : p + 1 < hi)
    (covered : ¬Free m.edits p) :
    ∃ c, m.text[p]? = some c ∧ Text.isBlank c = true := by
  unfold Free at covered
  push Not at covered
  obtain ⟨e, edit, covers⟩ := covered
  have uncovered := free e edit
  unfold Covers at covers uncovered
  obtain ⟨front, taken, back, cuts⟩ := cuts_of_mem_edits isRead edit
  rcases cuts.takes.ends with ⟨t, inside, stop⟩ | ⟨c, here, isBlank⟩
  · have member : t ∈ m.tokens := by simp [cuts.eq, inside]
    have order := (isRead.reads.within member).1
    rcases gap.clear t member with before | after <;> omega
  · refine ⟨c, ?_, isBlank⟩
    rw [← here]
    congr 1
    omega

end Gap

/-- No edit begins before the tokens. -/
theorem free_of_lt_hashBang (isRead : m.IsRead) (before : p < Lexer.hashBang m.text) : Free m.edits p := by
  intro e edit covered
  unfold Covers at covered
  obtain ⟨front, taken, back, cuts⟩ := cuts_of_mem_edits isRead edit
  obtain ⟨first, rest, rfl, start, eq⟩ := first_of_cuts cuts
  have := isRead.reads.position_le (show first ∈ m.tokens by simp [eq])
  omega

end Module

end ModuleBundler.Script
