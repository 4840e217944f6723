import ModuleBundler.Proofs.Script.Lines
import ModuleBundler.Proofs.Script.Places

/-!
What becomes of tokens when lines are dropped.

A line is dropped for its first characters. So a token is lost where a comment stands at the beginning of its line and
ends within the line: with a line break other than a line feed, or with the end of a block comment. Nothing else that
belongs to a token and is left alone by the edits is lost.
-/

namespace ModuleBundler.Script.Module

open Text (Span)
open Text.Edit (Free place)

/-- Whether a place in the edited text is lost. Its line begins with two slashes and not within a literal. Either a
comment may end between the slashes and the place, or an edit stood between the slashes. -/
def LosesAt (m : Module) (i : Nat) : Prop :=
  ∃ start d, InLine m.edited start i ∧ (∀ span ∈ m.editedLiterals, ¬(span.start < start ∧ start < span.stop)) ∧
    SlashesFrom m.edited start d ∧ d ≤ i ∧
      ((∃ j, d ≤ j ∧ Lexer.EndsComment m.edited j i) ∨
        ∃ q, Free m.edits q ∧ place m.edits q = d ∧ ¬Free m.edits (q + 1))

/-- A token that no edit meets, with the token before it if it is a piece of a template. Both stand together, and only
the token itself may go on in another line. -/
structure Anchors (m : Module) (t u : Token) : Prop where
  inside : t ∈ m.tokens
  member : u ∈ m.tokens
  noChunk : u.lexeme.isChunk = false
  le : u.start ≤ t.start
  nonempty : t.start < t.stop
  clear : ∀ k, u.start ≤ k → k < t.stop → Free m.edits k
  newline : ∀ k, u.start ≤ k → k < t.start → m.text[k]? ≠ some '\n'

variable {m : Module} {t u : Token} {p k start d i : Nat}

theorem quoted_of_newline (isRead : m.IsRead) (member : t ∈ m.tokens) (lower : t.start ≤ k) (upper : k < t.stop)
    (newline : m.text[k]? = some '\n') : t.lexeme.isQuoted = true := by
  cases isChunk : t.lexeme.isChunk with
  | true =>
    cases eq : t.lexeme
    all_goals simp_all [Lexeme.isChunk, Lexeme.isQuoted]
  | false =>
    refine (isRead.reads.isText member isChunk).2.onLine (List.mem_of_getElem? (i := k - t.start) ?_)
    rw [List.getElem?_take_of_lt (by omega), List.getElem?_drop, show t.start + (k - t.start) = k by omega]
    exact newline

/-- The first character of a token is no white space, and no comment begins there. -/
theorem first_of_token (isRead : m.IsRead) (member : u ∈ m.tokens) (noChunk : u.lexeme.isChunk = false) :
    ∃ c, m.text[u.start]? = some c ∧ Text.isBlank c = false ∧ (c = '/' → m.text[u.start + 1]? ≠ some '/') := by
  obtain ⟨solid, isText⟩ := isRead.reads.isText member noChunk
  have pos := isText.pos
  have bound := isText.le_length
  cases here : m.text.drop u.start with
  | nil =>
    rw [here, List.length_nil] at bound
    omega
  | cons c rest =>
    rw [here] at solid
    have at_ : ∀ k, m.text[u.start + k]? = (c :: rest)[k]? := fun k => by rw [← List.getElem?_drop, here]
    refine ⟨c, at_ 0, ?_, fun slash second => ?_⟩
    · have := solid.1
      rw [Text.isScriptBlank, Bool.or_eq_false_iff] at this
      exact this.1
    · rw [at_ 1] at second
      cases rest with
      | nil => cases second
      | cons d more => exact (solid.2 d more rfl slash).1 (Option.some.inj second)

theorem exists_anchors (isRead : m.IsRead) (member : t ∈ m.tokens) (free : Free m.edits p) (lower : t.start ≤ p)
    (upper : p < t.stop) : ∃ u, Anchors m t u := by
  have clear := isClear_of_free isRead member free lower upper
  cases isChunk : t.lexeme.isChunk with
  | false =>
    refine ⟨t, member, member, isChunk, Nat.le_refl _,
      by omega, fun k lower upper => clear.free lower upper, fun k lower upper => ?_⟩
    omega
  | true =>
    obtain ⟨front, back, eq⟩ := List.append_of_mem member
    obtain ⟨before, v, rfl, leads, stop⟩ := isRead.reads.before_chunk Lexer.Situation.nested_initial rfl eq isChunk
    rw [List.append_assoc] at eq
    have inside : v ∈ m.tokens := by simp [eq]
    have order := (isRead.reads.within inside).1
    have clear' := (clear.isSpared (by omega)).before_chunk isRead eq isChunk
    have unquoted : v.lexeme.isChunk = false ∧ v.lexeme.isQuoted = false := by
      rcases leads with h | h | h <;> rw [h] <;> exact ⟨rfl, rfl⟩
    refine
      ⟨v, member, inside, unquoted.1, by omega, by omega, fun k lower upper => ?_, fun k lower upper newline => ?_⟩
    · by_cases first : k < v.stop
      · exact clear'.free lower first
      · exact clear.free (by omega) upper
    · have quoted := quoted_of_newline isRead inside lower (by omega) newline
      rw [unquoted.2] at quoted
      cases quoted

namespace Anchors

variable (anchors : Anchors m t u)
include anchors

theorem first (isRead : m.IsRead) :
    ∃ c, m.text[u.start]? = some c ∧ Text.isBlank c = false ∧ (c = '/' → m.text[u.start + 1]? ≠ some '/') :=
  first_of_token isRead anchors.member anchors.noChunk

theorem lt_stop : u.start < t.stop := Nat.lt_of_le_of_lt anchors.le anchors.nonempty

theorem place_eq (isRead : m.IsRead) (lower : u.start ≤ k) (upper : k < t.stop) :
    place m.edits k = place m.edits u.start + (k - u.start) := by
  have moved := Text.Edit.place_add (apart_edits isRead) (p := u.start) (k := t.stop - u.start) (j := k - u.start)
    (fun j less => anchors.clear _ (by omega) (by omega)) (by omega)
  rwa [show u.start + (k - u.start) = k by omega] at moved

theorem getElem?_edited (isRead : m.IsRead) (lower : u.start ≤ k) (upper : k < t.stop) :
    m.edited[place m.edits u.start + (k - u.start)]? = m.text[k]? := by
  rw [← anchors.place_eq isRead lower upper]
  exact Text.Edit.getElem?_applyAll (apart_edits isRead) (anchors.clear k lower upper)

theorem isClear (isRead : m.IsRead) : m.IsClear t :=
  isClear_of_free isRead anchors.inside (anchors.clear t.start anchors.le anchors.nonempty)
    (Nat.le_refl _) anchors.nonempty

/-- If the line of a token begins within no literal, it begins before the token. -/
theorem start_le (isRead : m.IsRead) (lower : t.start ≤ p) (upper : p < t.stop)
    (line : InLine m.edited start (place m.edits p))
    (outside : ∀ span ∈ m.editedLiterals, ¬(span.start < start ∧ start < span.stop)) :
        start ≤ place m.edits u.start := by
  by_contra behind
  have le := anchors.le
  have lineLe := line.le
  rw [anchors.place_eq isRead (by omega) upper] at lineLe
  have newline := line.begins.resolve_left (by omega)
  have begins := anchors.place_eq isRead le anchors.nonempty
  -- The line feed before the line is a character of the token, so the token is a literal that the line begins in.
  have here := anchors.getElem?_edited isRead (k :=
    u.start + (start - 1 - place m.edits u.start)) (by omega) (by omega)
  rw [Nat.add_sub_cancel_left, show place m.edits u.start + (start - 1 - place m.edits u.start) = start - 1 by omega,
    newline] at here
  have inside : t.start ≤ u.start + (start - 1 - place m.edits u.start) := by
    by_contra before
    exact anchors.newline _ (by omega) (by omega) here.symm
  have quoted := quoted_of_newline isRead anchors.inside inside (by omega) here.symm
  have literal := mem_editedLiterals isRead anchors.inside quoted (anchors.isClear isRead) anchors.nonempty
  exact outside _ literal ⟨by simp only; omega, by simp only; omega⟩

/-- If the line of a token is dropped, it begins with two slashes that stand before the token. -/
theorem slashes_of_dropped (isRead : m.IsRead) (lower : t.start ≤ p) (upper : p < t.stop)
    (line : InLine m.edited start (place m.edits p))
    (dropped : keepsLine m.editedLiterals start (lineFrom m.edited start) = false) :
    ∃ d, SlashesFrom m.edited start d ∧ d ≤ place m.edits u.start := by
  obtain ⟨outside, judged⟩ := keepsLine_eq_false_iff.mp dropped
  have le := anchors.start_le isRead lower upper line outside
  have behind := anchors.place_eq isRead (Nat.le_trans anchors.le lower) upper
  obtain ⟨c, here, solid, _⟩ := anchors.first isRead
  have moved := anchors.getElem?_edited isRead (Nat.le_refl _) anchors.lt_stop
  rw [Nat.sub_self, Nat.add_zero, here] at moved
  rcases judged with blank | isComment
  · have noBreak : c ≠ '\n' := by
      rintro rfl
      exact absurd solid (by decide)
    have inLine := (line.of_le le (by omega)).getElem?_lineFrom moved noBreak
    rw [blank c (List.mem_of_getElem? inLine)] at solid
    cases solid
  · obtain ⟨d, slashes⟩ := slashesFrom_of_isCommentLine isComment
    refine ⟨d, slashes, ?_⟩
    by_contra before
    obtain ⟨b, found, isBlank⟩ := slashes.blank _ le (Nat.lt_of_not_le before)
    obtain rfl := Option.some.inj (moved.symm.trans found)
    rw [isBlank] at solid
    cases solid

end Anchors

/-- Two slashes of the text that a line of the edited text begins with, at the place `d`. -/
structure OpensLine (m : Module) (start d p : Nat) : Prop where
  line : InLine m.edited start d
  outside : ∀ span ∈ m.editedLiterals, ¬(span.start < start ∧ start < span.stop)
  blank : ∀ k, start ≤ k → k < d → ∃ c, m.edited[k]? = some c ∧ Text.isBlank c = true
  free : Free m.edits p
  moved : place m.edits p = d
  first : m.text[p]? = some '/'
  second : m.text[p + 1]? = some '/'

namespace OpensLine

variable (isRead : m.IsRead) (slashes : OpensLine m start d p)
include isRead slashes

/-- They belong to no token. -/
theorem not_token (member : t ∈ m.tokens) (lower : t.start ≤ p) (upper : p < t.stop) : False := by
  obtain ⟨u, anchors⟩ := exists_anchors isRead member slashes.free lower upper
  have moved := slashes.moved
  have le := anchors.start_le isRead lower upper (moved.symm ▸ slashes.line) slashes.outside
  have behind := anchors.place_eq isRead (Nat.le_trans anchors.le lower) upper
  obtain ⟨c, first, solid, noComment⟩ := anchors.first isRead
  have atFirst := anchors.getElem?_edited isRead (Nat.le_refl _) anchors.lt_stop
  rw [Nat.sub_self, Nat.add_zero, first] at atFirst
  by_cases same : u.start = p
  · rw [same] at first noComment
    exact noComment (Option.some.inj (first.symm.trans slashes.first)) slashes.second
  · obtain ⟨b, found, isBlank⟩ := slashes.blank _ le (by have := anchors.le; omega)
    obtain rfl := Option.some.inj (atFirst.symm.trans found)
    rw [isBlank] at solid
    cases solid

/-- They do not stand before the tokens. -/
theorem not_hashBang (less : p < Lexer.hashBang m.text) : False := by
  have clear : ∀ k, k < p + 1 → Free m.edits (0 + k) := fun k bound => free_of_lt_hashBang isRead (by omega)
  have place_ : ∀ k, k < p + 1 → place m.edits k = place m.edits 0 + k := by
    intro k bound
    have := Text.Edit.place_add (apart_edits isRead) clear bound
    rwa [Nat.zero_add] at this
  have edited_ : ∀ k, k < p + 1 → m.edited[place m.edits 0 + k]? = m.text[k]? := by
    intro k bound
    rw [← place_ k bound]
    exact Text.Edit.getElem?_applyAll (apart_edits isRead) (by simpa using clear k bound)
  have atEnd := place_ p (Nat.lt_succ_self p)
  have sign := (Lexer.hashBang_line less).1
  have moved := slashes.moved
  have le := slashes.line.le
  by_cases begins : start ≤ place m.edits 0
  · cases p with
    | zero =>
      have slash := slashes.first
      rw [sign] at slash
      cases slash
    | succ p =>
      obtain ⟨c, found, isBlank⟩ := slashes.blank _ begins (by omega)
      have first := edited_ 0 (by omega)
      rw [Nat.add_zero, found, sign] at first
      cases first
      cases isBlank
  · have newline := slashes.line.begins.resolve_left (by omega)
    have inside := edited_ (start - 1 - place m.edits 0) (by omega)
    rw [show place m.edits 0 + (start - 1 - place m.edits 0) = start - 1 by omega, newline] at inside
    exact (Lexer.hashBang_line (k := start - 1 - place m.edits 0) (by omega)).2 inside.symm

/-- They stand behind no star. -/
theorem noStar {lo hi : Nat} (gap : Lexer.IsGap m.text m.tokens lo hi) (lower : lo < p) (upper : p < hi) :
    m.text[p - 1]? ≠ some '*' := by
  obtain ⟨q, rfl⟩ : ∃ q, p = q + 1 := ⟨p - 1, by omega⟩
  rw [Nat.add_sub_cancel]
  intro star
  have solid : ∀ c, m.text[q]? = some c → Text.isBlank c = false := by
    intro c same
    rw [star] at same
    cases same
    rfl
  by_cases free' : Free m.edits q
  · have together := Text.Edit.place_add (apart_edits isRead) (p := q) (k := 2) (j := 1) (fun j less => by
      obtain rfl | rfl : j = 0 ∨ j = 1 := by omega
      · exact free'
      · exact slashes.free) (by omega)
    have moved' : m.edited[place m.edits q]? = m.text[q]? := Text.Edit.getElem?_applyAll (apart_edits isRead) free'
    have moved := slashes.moved
    have le := slashes.line.le
    by_cases begins : start ≤ place m.edits q
    · obtain ⟨c, found, isBlank⟩ := slashes.blank _ begins (by omega)
      rw [solid c (moved'.symm.trans found)] at isBlank
      cases isBlank
    · have newline := slashes.line.begins.resolve_left (by omega)
      rw [show start - 1 = place m.edits q by omega, moved', star] at newline
      cases newline
  · obtain ⟨c, found, isBlank⟩ := isBlank_of_covered isRead gap slashes.free (by omega) upper free'
    rw [solid c found] at isBlank
    cases isBlank

/-- They begin a comment, and some comment ends before the next token. -/
theorem ends (anchors : Anchors m t u) (before : d ≤ place m.edits u.start) :
    ∃ j, d ≤ j ∧ Lexer.EndsComment m.edited j (place m.edits u.start) := by
  have apart := apart_edits isRead
  have freeU := anchors.clear u.start (Nat.le_refl _) anchors.lt_stop
  have order : p ≤ u.start := by
    by_contra behind
    have := Text.Edit.place_lt_place apart freeU slashes.free (Nat.lt_of_not_le behind)
    have := slashes.moved
    omega
  have nonempty := (isRead.reads.isText anchors.member anchors.noChunk).2.pos
  have inside := isRead.reads.within anchors.member
  rcases Nat.lt_or_ge p (Lexer.hashBang m.text) with early | late
  · exact (slashes.not_hashBang isRead early).elim
  rcases isRead.reads.token_or_gap late (by omega) with ⟨v, member, lower, upper⟩ | ⟨lo, hi, _, lower, upper, gap⟩
  · exact (slashes.not_token isRead member lower upper).elim
  have after : hi ≤ u.start := by
    rcases gap.clear u anchors.member with earlier | later <;> omega
  have clear : ∀ k < hi - p, Free m.edits (p + k) := fun k less =>
    free_of_gap isRead gap slashes.free lower (Nat.le_add_right _ _) (by omega)
  have place_ : ∀ k < hi - p, place m.edits (p + k) = d + k := fun k less =>
    slashes.moved ▸ Text.Edit.place_add apart clear less
  have edited_ : ∀ k < hi - p, m.edited[d + k]? = m.text[p + k]? := by
    intro k less
    rw [← place_ k less]
    exact Text.Edit.getElem?_applyAll apart (clear k less)
  have earlier : ∀ k < hi - p, d + k < place m.edits u.start := by
    intro k less
    rw [← place_ k less]
    exact Text.Edit.place_lt_place apart (clear k less) freeU (by omega)
  obtain ⟨broken, ended, blank⟩ := gap.blank
  have slashesAt : Lexer.SlashesAt (m.text.drop lo) (p - lo) := by
    refine ⟨?_, ?_, fun j same => ?_⟩
    · rw [List.getElem?_drop, show lo + (p - lo) = p by omega]
      exact slashes.first
    · rw [List.getElem?_drop, show lo + (p - lo + 1) = p + 1 by omega]
      exact slashes.second
    · rw [List.getElem?_drop, show lo + j = p - 1 by omega]
      exact slashes.noStar isRead gap (by omega) upper
  rcases Lexer.goesOn_slashes blank (by omega) slashesAt with whole | ⟨j, behind, ends⟩
  · rw [List.length_drop] at whole
    omega
  · rcases ends.of_drop with ⟨less, c, here, isBreak⟩ | ⟨less, star, slash⟩
    · refine ⟨d + (lo + j - p), by omega, Or.inl ⟨earlier _ (by omega), c, ?_, isBreak⟩⟩
      rw [edited_ _ (by omega), show p + (lo + j - p) = lo + j by omega]
      exact here
    · refine ⟨d + (lo + j - p), by omega, Or.inr ⟨?_, ?_, ?_⟩⟩
      · exact earlier (lo + j - p + 1) (by omega)
      · rw [edited_ _ (by omega), show p + (lo + j - p) = lo + j by omega]
        exact star
      · rw [Nat.add_assoc, edited_ _ (by omega), show p + (lo + j - p + 1) = lo + j + 1 by omega]
        exact slash

end OpensLine

/-- The slashes that a line begins with are slashes of the text. Unless an edit stood between them, they stood
together there. -/
theorem opensLine_of_slashes (isRead : m.IsRead) (line : InLine m.edited start i)
    (slashes : SlashesFrom m.edited start d)
    (before : d ≤ i) (outside : ∀ span ∈ m.editedLiterals, ¬(span.start < start ∧ start < span.stop)) :
    (∃ p, OpensLine m start d p) ∨ ∃ q, Free m.edits q ∧ place m.edits q = d ∧ ¬Free m.edits (q + 1) := by
  have apart := apart_edits isRead
  rcases Text.Edit.origin_applyAll apart slashes.first with ⟨p, inside, free, moved⟩ | ⟨e, edit, slash⟩
  · by_cases next : Free m.edits (p + 1)
    · have together := Text.Edit.place_add apart (p := p) (k := 2) (j := 1) (fun j less => by
        obtain rfl | rfl : j = 0 ∨ j = 1 := by omega
        · exact free
        · exact next) (by omega)
      refine Or.inl ⟨p, line.of_le slashes.le before, outside, slashes.blank, free, moved, ?_, ?_⟩
      · rw [← Text.Edit.getElem?_applyAll apart free, moved]
        exact slashes.first
      · rw [← Text.Edit.getElem?_applyAll apart next, together, moved]
        exact slashes.second
    · exact Or.inr ⟨p, free, moved, next⟩
  · obtain ⟨front, taken, back, cuts⟩ := cuts_of_mem_edits isRead edit
    exact absurd rfl (cuts.plain '/' slash).1

theorem losesAt_of_dropped (isRead : m.IsRead) (member : t ∈ m.tokens) (lower : t.start ≤ p) (upper : p < t.stop)
    (free : Free m.edits p) (line : InLine m.edited start (place m.edits p))
    (dropped : keepsLine m.editedLiterals start (lineFrom m.edited start) = false) : m.LosesAt (place m.edits p) := by
  obtain ⟨u, anchors⟩ := exists_anchors isRead member free lower upper
  obtain ⟨d, slashes, before⟩ := anchors.slashes_of_dropped isRead lower upper line dropped
  have outside := (keepsLine_eq_false_iff.mp dropped).1
  have behind := anchors.place_eq isRead (Nat.le_trans anchors.le lower) upper
  refine ⟨start, d, line, outside, slashes, by omega, ?_⟩
  rcases opensLine_of_slashes isRead line slashes (by omega) outside with ⟨q, opens⟩ | cut
  · obtain ⟨j, behind, ends⟩ := opens.ends isRead anchors before
    exact Or.inl ⟨j, behind, ends.of_le (by omega)⟩
  · exact Or.inr cut

theorem LosesAt.dropped (loses : m.LosesAt i) :
    ∃ start, InLine m.edited start i ∧ keepsLine m.editedLiterals start (lineFrom m.edited start) = false := by
  obtain ⟨start, d, line, outside, slashes, before, _⟩ := loses
  refine ⟨start, line, keepsLine_eq_false_iff.mpr ⟨outside, Or.inr ?_⟩⟩
  exact slashes.isCommentLine (line.of_le slashes.le before)

theorem inLine_next (newline : m.edited[i]? = some '\n') : InLine m.edited (i + 1) (i + 1) :=
  ⟨Nat.le_refl _, Or.inr newline, fun k lower upper => by omega⟩

/-- Behind a piece of a template that ends with a line feed, a line begins with what closes the piece. -/
theorem closer_of_newline (isRead : m.IsRead) (member : t ∈ m.tokens) (nonempty : t.start < t.stop)
    (clear : m.IsClear t)
    (newline : m.text[t.stop - 1]? = some '\n') :
    Free m.edits t.stop ∧ ∃ c, m.text[t.stop]? = some c ∧ (c = '\x60' ∨ c = '$') := by
  obtain ⟨front, back, eq⟩ := List.append_of_mem member
  rcases isRead.reads.behind Lexer.Situation.nested_initial eq
    with ⟨_, ⟨w, rest, rfl, start, closes⟩, c, _, mark, here⟩ | ⟨noChunk, _⟩
  · have noOpening : ¬OpensEdit w.lexeme := by
      rintro (h | h | h) <;> rcases closes with h' | h' <;> rw [h'] at h <;> cases h
    have noChunk : w.lexeme.isChunk = false := by
      rcases closes with h | h <;> rw [h] <;> rfl
    have pos := (isRead.reads.isText (show w ∈ m.tokens by simp [eq]) noChunk).2.pos
    refine ⟨((clear.isSpared nonempty).behind_chunk isRead eq noOpening).free (by omega) (by omega), c, ?_, mark⟩
    rw [← List.head?_drop, here]
    rfl
  · have ends := (isRead.reads.isText member noChunk).2.ends
    rw [List.getElem?_drop, show t.start + (t.stop - t.start - 1) = t.stop - 1 by omega] at ends
    exact absurd newline ends

/-- Behind a line feed that belongs to a token, a line begins that is kept. -/
theorem keepsLine_next (isRead : m.IsRead) (member : t ∈ m.tokens) (lower : t.start ≤ p) (upper : p < t.stop)
    (free : Free m.edits p) (newline : m.text[p]? = some '\n') :
    place m.edits p + 1 < m.edited.length ∧
      keepsLine m.editedLiterals (place m.edits p + 1) (lineFrom m.edited (place m.edits p + 1)) = true := by
  have apart := apart_edits isRead
  have clear := isClear_of_free isRead member free lower upper
  have within := isRead.reads.within member
  have together (next : Free m.edits (p + 1)) : place m.edits (p + 1) = place m.edits p + 1 :=
    Text.Edit.place_add apart (k := 2) (fun j less => by
      obtain rfl | rfl : j = 0 ∨ j = 1 := by omega
      · exact free
      · exact next) (by omega)
  have moved : m.edited[place m.edits p]? = some '\n' := newline ▸ Text.Edit.getElem?_applyAll apart free
  rcases Nat.lt_or_ge (p + 1) t.stop with inside | atEnd
  · have next := clear.free (Nat.le_succ_of_le lower) inside
    have moved' : m.edited[place m.edits p + 1]? = m.text[p + 1]? :=
      together next ▸ Text.Edit.getElem?_applyAll apart next
    rw [List.getElem?_eq_getElem (show p + 1 < m.text.length by omega)] at moved'
    refine ⟨(List.getElem?_eq_some_iff.mp moved').choose, ?_⟩
    by_contra dropped
    have outside := (keepsLine_eq_false_iff.mp (Bool.eq_false_iff.mpr dropped)).1
    have quoted := quoted_of_newline isRead member lower upper newline
    have begins := Text.Edit.place_add apart (p := t.start) (k := t.stop - t.start) (j := p - t.start)
      (fun j less => clear.free (Nat.le_add_right _ _) (by omega)) (by omega)
    rw [show t.start + (p - t.start) = p by omega] at begins
    refine outside _ (mem_editedLiterals isRead member quoted clear (by omega)) ⟨?_, ?_⟩
    · simp only
      omega
    · simp only
      omega
  · obtain rfl : p = t.stop - 1 := by omega
    obtain ⟨next, c, here, mark⟩ := closer_of_newline isRead member (by omega) clear newline
    rw [show t.stop - 1 + 1 = t.stop by omega] at together
    have moved' : m.edited[place m.edits (t.stop - 1) + 1]? = some c := by
      rw [← together next, ← here]
      exact Text.Edit.getElem?_applyAll apart next
    refine ⟨(List.getElem?_eq_some_iff.mp moved').choose, ?_⟩
    have solid : Text.isBlank c = false ∧ c ≠ '/' ∧ c ≠ '\n' := by
      rcases mark with rfl | rfl <;> decide
    by_contra dropped
    rcases (keepsLine_eq_false_iff.mp (Bool.eq_false_iff.mpr dropped)).2 with blank | isComment
    · have inLine := (inLine_next moved).getElem?_lineFrom moved' solid.2.2
      rw [blank c (List.mem_of_getElem? inLine)] at solid
      cases solid.1
    · obtain ⟨d, slashes⟩ := slashesFrom_of_isCommentLine isComment
      rcases Nat.lt_or_eq_of_le slashes.le with before | rfl
      · obtain ⟨b, found, isBlank⟩ := slashes.blank _ (Nat.le_refl _) before
        obtain rfl := Option.some.inj (moved'.symm.trans found)
        rw [isBlank] at solid
        cases solid.1
      · exact solid.2.1 (Option.some.inj (moved'.symm.trans slashes.first))

/-- A character of a token that no edit replaces is kept, unless it is lost. -/
theorem mem_keptPlaces_iff (isRead : m.IsRead) (member : t ∈ m.tokens) (lower : t.start ≤ p) (upper : p < t.stop)
    (free : Free m.edits p) :
    place m.edits p ∈ keptPlaces m.editedLiterals 0 (Text.splitOn '\n' m.edited) ↔ ¬m.LosesAt (place m.edits p) := by
  have lines := linesFrom_splitOn m.edited
  have moved : m.edited[place m.edits p]? = m.text[p]? := Text.Edit.getElem?_applyAll (apart_edits isRead) free
  have within := isRead.reads.within member
  rw [List.getElem?_eq_getElem (show p < m.text.length by omega)] at moved
  constructor
  · intro kept loses
    obtain ⟨start, line, dropped⟩ := loses.dropped
    rw [lines.keepsLine_of_mem line kept] at dropped
    cases dropped
  · intro stays
    obtain ⟨start, line⟩ := InLine.exists_start m.edited (place m.edits p)
    have kept : keepsLine m.editedLiterals start (lineFrom m.edited start) = true := by
      by_contra dropped
      exact stays (losesAt_of_dropped isRead member lower upper free line (Bool.eq_false_iff.mpr dropped))
    refine lines.mem_keptPlaces line (Nat.zero_le _)
      (List.getElem?_eq_some_iff.mp moved).choose kept fun newline => ?_
    have newline' : m.text[p]? = some '\n' := by
      rw [← newline]
      exact (Text.Edit.getElem?_applyAll (apart_edits isRead) free).symm
    obtain ⟨inside, next⟩ := keepsLine_next isRead member lower upper free newline'
    exact ⟨_, Nat.lt_succ_self _, inside, inLine_next newline, next⟩

/-- Dropping lines keeps the characters of tokens that no edit replaces, in their order, except
for those that are lost. -/
theorem compact_keeps_tokens {source : List Char} (h : parse? source = some m) :
    let kept := keptPlaces m.editedLiterals 0 (Text.splitOn '\n' m.edited)
    kept.map (m.edited[·]?) = (compact m.editedLiterals m.edited).map some ∧ kept.Pairwise (· < ·) ∧
      (∀ p q, Free m.edits p → Free m.edits q → p < q → place m.edits p < place m.edits q) ∧
      ∀ t ∈ m.tokens, ∀ p, t.start ≤ p → p < t.stop → Free m.edits p →
        m.edited[place m.edits p]? = m.text[p]? ∧ (place m.edits p ∈ kept ↔ ¬m.LosesAt (place m.edits p)) := by
  have isRead := isRead_of_parse h
  have apart := apart_edits isRead
  refine ⟨compact_eq _ _, pairwise_keptPlaces _ _ _, fun p q freeP freeQ => ?_,
    fun t member p lower upper free => ⟨?_, ?_⟩⟩
  · exact Text.Edit.place_lt_place apart freeP freeQ
  · exact Text.Edit.getElem?_applyAll apart free
  · exact mem_keptPlaces_iff isRead member lower upper free

/-- Behind an import that is taken out, a token is kept. -/
theorem compact_keeps_behind_import :
    ∃ m, parse? "import 'x'\nb".toList = some m ∧ m.edited[place m.edits 11]? = some 'b' ∧
        ¬m.LosesAt (place m.edits 11) := by
  have read : (parse? "import 'x'\nb".toList).map (fun m =>
      (m.edits, m.tokens.map fun t => (t.start, t.stop), keptPlaces m.editedLiterals 0 (Text.splitOn '\n' m.edited),
        m.edited)) = some ([.remove 0 11], [(0, 6), (7, 10), (11, 12)], [0], ['b']) := by
    decide +kernel
  obtain ⟨m, h, eq⟩ := Option.map_eq_some_iff.mp read
  obtain ⟨edits, eq⟩ := Prod.mk.inj eq
  obtain ⟨tokens, eq⟩ := Prod.mk.inj eq
  obtain ⟨kept, edited⟩ := Prod.mk.inj eq
  obtain ⟨t, member, place_⟩ := List.mem_map.mp (tokens ▸ show (11, 12) ∈ [(0, 6), (7, 10), (11, 12)] by simp)
  obtain ⟨start, stop⟩ := Prod.mk.inj place_
  have free : Free m.edits 11 := by
    rw [edits]
    intro e member covered
    rw [List.mem_singleton.mp member] at covered
    exact absurd covered.2 (by decide)
  obtain ⟨_, keeps⟩ := (compact_keeps_tokens h).2.2.2 t member 11 (by omega) (by omega) free
  have moved : place m.edits 11 = 0 := by
    rw [edits]
    decide +kernel
  refine ⟨m, h, by rw [moved, edited]; rfl, keeps.mp ?_⟩
  rw [moved, kept]
  exact List.mem_singleton_self 0

/-- A carriage return ends a comment, but not the line that is dropped for it. -/
theorem compact_loses_behind_carriageReturn : ∃ m, parse? "//\ra".toList = some m ∧
    m.edits = [] ∧ (m.tokens.map fun t => (t.start, t.stop)) = [(3, 4)] ∧ compact m.editedLiterals m.edited = [] := by
  have read : (parse? "//\ra".toList).map (fun m =>
      (m.edits, m.tokens.map fun t => (t.start, t.stop), compact m.editedLiterals m.edited)) =
          some ([], [(3, 4)], []) := by
    decide +kernel
  obtain ⟨m, h, eq⟩ := Option.map_eq_some_iff.mp read
  obtain ⟨edits, eq⟩ := Prod.mk.inj eq
  exact ⟨m, h, edits, Prod.mk.inj eq⟩

end ModuleBundler.Script.Module
