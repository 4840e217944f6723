import ModuleBundler.Proofs.Script.Compaction
import ModuleBundler.Proofs.Text.Trim

/-!
Literals that come through as they are.

A line that begins inside of a literal is kept whatever it holds. So of a literal that no edit takes nothing is
lost, if the line that it begins in is kept. Around the literal, up to a character that is no white space on
either side (`Frame`), nothing is lost either: that is the literal itself, or the marks around a piece of a
template. So the literal stands together in what is left, and trimming does not reach it.
-/

namespace ModuleBundler.Script.Module

open Text (IsPartAt)
open Text.Edit (Free place)

section Ranks

variable {l : List Nat} {a i n : Nat}

/-- In a list that goes up, a number stands behind as many as are less. -/
theorem getElem?_countP (sorted : l.Pairwise (· < ·)) (member : i ∈ l) : l[l.countP (· < i)]? = some i := by
  induction l with
  | nil => cases member
  | cons b l ih =>
    obtain ⟨first, rest⟩ := List.pairwise_cons.mp sorted
    rcases List.mem_cons.mp member with rfl | later
    · have none : l.countP (· < i) = 0 := List.countP_eq_zero.mpr fun c inside => by
        have := first c inside
        simp only [decide_eq_true_eq]
        omega
      rw [List.countP_cons_of_neg (by simp), none]
      rfl
    · rw [List.countP_cons_of_pos (by simpa using first i later), List.getElem?_cons_succ]
      exact ih rest later

theorem countP_succ (sorted : l.Pairwise (· < ·)) (member : i ∈ l) : l.countP (· < i + 1) = l.countP (· < i) + 1 := by
  induction l with
  | nil => cases member
  | cons b l ih =>
    obtain ⟨first, rest⟩ := List.pairwise_cons.mp sorted
    rcases List.mem_cons.mp member with rfl | later
    · have none (bound : Nat) (near : bound ≤ i + 1) : l.countP (· < bound) = 0 :=
          List.countP_eq_zero.mpr fun c inside => by
        have := first c inside
        simp only [decide_eq_true_eq]
        omega
      rw [List.countP_cons_of_pos (by simp), List.countP_cons_of_neg (by simp), none _ (Nat.le_refl _),
        none _ (Nat.le_succ _)]
    · have less := first i later
      rw [List.countP_cons_of_pos (by simp only [decide_eq_true_eq]; omega),
        List.countP_cons_of_pos (by simpa using less), ih rest later]

theorem countP_add (sorted : l.Pairwise (· < ·)) (members : ∀ k < n, a + k ∈ l) :
    l.countP (· < a + n) = l.countP (· < a) + n := by
  induction n with
  | zero => rfl
  | succ n ih =>
    rw [← Nat.add_assoc, countP_succ sorted (members n (Nat.lt_succ_self n)), ih fun k less => members k (by omega)]
    omega

theorem countP_mono {b : Nat} (le : a ≤ b) : l.countP (· < a) ≤ l.countP (· < b) :=
  List.countP_mono_left fun c _ less => by
    simp only [decide_eq_true_eq] at less ⊢
    omega

end Ranks

/-- A literal with what surrounds it, from a character that is no white space to another. No edit meets any of it,
and its lines end inside of the literal only. -/
structure Frame (m : Module) (t : Token) (lo hi : Nat) : Prop where
  member : t ∈ m.tokens
  lo_le : lo ≤ t.start
  lt_hi : t.start < hi
  le_hi : t.stop ≤ hi
  free : ∀ k, lo ≤ k → k < hi → Free m.edits k
  newline : ∀ k, lo ≤ k → k < hi → m.text[k]? = some '\n' → t.start ≤ k ∧ k < t.stop
  first : ∃ c, m.text[lo]? = some c ∧ Text.isBlank c = false
  last : ∃ c, m.text[hi - 1]? = some c ∧ Text.isBlank c = false

variable {m : Module} {t u : Token} {lo hi start k p : Nat} {source : List Char}

theorem frame_of_quoted (isRead : m.IsRead) (member : t ∈ m.tokens) (noChunk : t.lexeme.isChunk = false)
    (quoted : t.lexeme.isQuoted = true) (clear : m.IsClear t) : Frame m t t.start t.stop := by
  have pos := (isRead.reads.isText member noChunk).2.pos
  have noMark : t.lexeme ≠ .mark .backtick ∧ t.lexeme ≠ .mark .dollarBrace := by
    constructor
    all_goals
      intro same
      rw [same] at quoted
      cases quoted
  obtain ⟨_, isLexeme⟩ := isRead.reads.isLexeme member noChunk noMark
  obtain ⟨c, here, solid⟩ := Lexer.quoted_ends isLexeme quoted
  obtain ⟨d, first, solid', _⟩ := first_of_token isRead member noChunk
  rw [List.getElem?_drop, show t.start + (t.stop - t.start - 1) = t.stop - 1 by omega] at here
  exact ⟨member, Nat.le_refl _, by omega, Nat.le_refl _, fun k lower upper => clear.free lower upper,
    fun k lower upper _ => ⟨lower, upper⟩, ⟨d, first, solid'⟩, ⟨c, here, solid⟩⟩

/-- A piece of a template is framed by the mark before it and the first character of the mark behind it. -/
theorem frame_of_chunk (isRead : m.IsRead) (member : t ∈ m.tokens) (isChunk : t.lexeme.isChunk = true)
    (spared : m.IsSpared t) :
    ∃ lo, Frame m t lo (t.stop + 1) := by
  obtain ⟨front, back, eq⟩ := List.append_of_mem member
  obtain ⟨before, v, rfl, leads, stop⟩ := isRead.reads.before_chunk Lexer.Situation.nested_initial rfl eq isChunk
  rcases isRead.reads.behind Lexer.Situation.nested_initial eq
    with ⟨_, ⟨w, rest, rfl, start, closes⟩, c, _, mark, here⟩ | ⟨noChunk, _⟩
  · rw [List.append_assoc] at eq
    have unquoted : v.lexeme.isChunk = false ∧ v.lexeme.isQuoted = false := by
      rcases leads with h | h | h <;> rw [h] <;> exact ⟨rfl, rfl⟩
    have noOpening : ¬OpensEdit w.lexeme := by
      rintro (h | h | h) <;> rcases closes with h' | h' <;> rw [h'] at h <;> cases h
    have noChunk : w.lexeme.isChunk = false := by
      rcases closes with h | h <;> rw [h] <;> rfl
    have inside : v ∈ m.tokens := by simp [eq]
    have pos := (isRead.reads.isText (show w ∈ m.tokens by simp [eq]) noChunk).2.pos
    have within := isRead.reads.within member
    have within' := isRead.reads.within inside
    have clear := spared.isClear isRead member
    have clearV := spared.before_chunk isRead eq isChunk
    have eq' : m.tokens = (before ++ [v]) ++ t :: w :: rest := by rw [eq, List.append_assoc]
    have clearW := spared.behind_chunk isRead eq' noOpening
    have closer : m.text[t.stop]? = some c := by
      rw [← List.head?_drop, here]
      rfl
    have solid : Text.isBlank c = false ∧ c ≠ '\n' := by
      rcases mark with rfl | rfl <;> decide
    obtain ⟨d, first, solid', _⟩ := first_of_token isRead inside unquoted.1
    refine
      ⟨v.start, member, by omega, by omega, Nat.le_succ _, fun k lower upper => ?_, fun k lower upper newline => ?_,
      ⟨d, first, solid'⟩, ⟨c, closer, solid.1⟩⟩
    · rcases Nat.lt_or_ge k v.stop with inV | behindV
      · exact clearV.free lower inV
      · rcases Nat.lt_or_ge k t.stop with inT | behindT
        · exact clear.free (by omega) inT
        · exact clearW.free (by omega) (by omega)
    · rcases Nat.lt_or_ge k v.stop with inV | behindV
      · have quoted := quoted_of_newline isRead inside lower inV newline
        rw [unquoted.2] at quoted
        cases quoted
      · refine ⟨by omega, ?_⟩
        by_contra behindT
        obtain rfl : k = t.stop := by omega
        exact solid.2 (Option.some.inj (closer.symm.trans newline))
  · rw [isChunk] at noChunk
    cases noChunk

theorem exists_frame (isRead : m.IsRead) (member : t ∈ m.tokens) (quoted : t.lexeme.isQuoted = true)
    (spared : m.IsSpared t) :
    ∃ lo hi, Frame m t lo hi := by
  cases isChunk : t.lexeme.isChunk with
  | false => exact ⟨_, _, frame_of_quoted isRead member isChunk quoted (spared.isClear isRead member)⟩
  | true =>
    obtain ⟨lo, frame⟩ := frame_of_chunk isRead member isChunk spared
    exact ⟨lo, _, frame⟩

/-- A place belongs to one line only. -/
theorem InLine.unique {text : List Char} {other place : Nat} (line : InLine text start place)
    (line' : InLine text other place) :
    start = other := by
  have le := line.le
  have le' := line'.le
  rcases Nat.lt_trichotomy start other with before | same | behind
  · have newline := line'.begins.resolve_left (by omega)
    exact absurd newline (line.goesOn (other - 1) (by omega) (by omega))
  · exact same
  · have newline := line.begins.resolve_left (by omega)
    exact absurd newline (line'.goesOn (start - 1) (by omega) (by omega))

/-- The places of the characters that are kept after the edits. -/
abbrev kept (m : Module) : List Nat := keptPlaces m.editedLiterals 0 (Text.splitOn '\n' m.edited)

namespace Frame

variable (frame : Frame m t lo hi) (isRead : m.IsRead)
include frame isRead

theorem place_eq (lower : lo ≤ k) (upper : k < hi) : place m.edits k = place m.edits lo + (k - lo) := by
  have moved := Text.Edit.place_add (apart_edits isRead) (p := lo) (k := hi - lo) (j := k - lo)
    (fun j less => frame.free _ (by omega) (by omega)) (by omega)
  rwa [show lo + (k - lo) = k by omega] at moved

theorem getElem?_edited (lower : lo ≤ k) (upper : k < hi) : m.edited[place m.edits k]? = m.text[k]? :=
  Text.Edit.getElem?_applyAll (apart_edits isRead) (frame.free k lower upper)

/-- A line feed inside of what surrounds a literal belongs to the literal, and the next line is kept. -/
theorem keepsLine_next (lower : lo ≤ k) (upper : k < hi) (newline : m.edited[place m.edits k]? = some '\n') :
    t.start ≤ k ∧ place m.edits k + 1 < m.edited.length ∧
      keepsLine m.editedLiterals (place m.edits k + 1) (lineFrom m.edited (place m.edits k + 1)) = true := by
  rw [frame.getElem?_edited isRead lower upper] at newline
  obtain ⟨lower', upper'⟩ := frame.newline k lower upper newline
  exact ⟨lower', Module.keepsLine_next isRead frame.member lower' upper' (frame.free k lower upper) newline⟩

/-- If the first line of a literal is kept, all lines are that what surrounds the literal stands in. -/
theorem keepsLine (line : InLine m.edited start (place m.edits t.start))
    (first : Module.keepsLine m.editedLiterals start (lineFrom m.edited start) = true) (lower : lo ≤ k)
    (upper : k < hi) {l : Nat}
    (inLine : InLine m.edited l (place m.edits k)) :
        Module.keepsLine m.editedLiterals l (lineFrom m.edited l) = true := by
  have here := frame.place_eq isRead lower upper
  have begins := frame.place_eq isRead frame.lo_le frame.lt_hi
  have lo_le := frame.lo_le
  have lt_hi := frame.lt_hi
  have le := inLine.le
  by_cases early : l ≤ place m.edits t.start
  · -- no line ends between the place and the beginning of the literal
    have same : InLine m.edited l (place m.edits t.start) := by
      refine ⟨early, inLine.begins, fun j behind before newline => ?_⟩
      by_cases sooner : j < place m.edits k
      · exact inLine.goesOn j behind sooner newline
      · have moved := frame.place_eq isRead (k := lo + (j - place m.edits lo)) (by omega) (by omega)
        rw [show j = place m.edits (lo + (j - place m.edits lo)) by omega] at newline
        have := (frame.keepsLine_next isRead (by omega) (by omega) newline).1
        omega
    rw [← line.unique same]
    exact first
  · -- the line begins behind a line feed of the literal
    have newline := inLine.begins.resolve_left (by omega)
    have moved := frame.place_eq isRead (k := lo + (l - 1 - place m.edits lo)) (by omega) (by omega)
    rw [show l - 1 = place m.edits (lo + (l - 1 - place m.edits lo)) by omega] at newline
    have next := (frame.keepsLine_next isRead (by omega) (by omega) newline).2.2
    rwa [show place m.edits (lo + (l - 1 - place m.edits lo)) + 1 = l by omega] at next

theorem mem_kept (line : InLine m.edited start (place m.edits t.start))
    (first : Module.keepsLine m.editedLiterals start (lineFrom m.edited start) = true)
    (lower : lo ≤ k) (upper : k < hi) :
    place m.edits k ∈ m.kept := by
  obtain ⟨l, inLine⟩ := InLine.exists_start m.edited (place m.edits k)
  have moved := frame.getElem?_edited isRead lower upper
  have inText : k < m.text.length := by
    obtain ⟨c, last, _⟩ := frame.last
    have := (List.getElem?_eq_some_iff.mp last).choose
    omega
  rw [List.getElem?_eq_getElem inText] at moved
  refine (linesFrom_splitOn m.edited).mem_keptPlaces inLine (Nat.zero_le _)
    (List.getElem?_eq_some_iff.mp moved).choose
    (frame.keepsLine isRead line first lower upper inLine) fun newline => ?_
  obtain ⟨_, inside, next⟩ := frame.keepsLine_next isRead lower upper newline
  exact ⟨_, Nat.lt_succ_self _, inside, inLine_next newline, next⟩

end Frame

/-- A token as it is written. -/
def written (m : Module) (t : Token) : List Char := (m.text.drop t.start).take (t.stop - t.start)

/-- Where a character of the text stands when lines are dropped. -/
def compactPlace (m : Module) (p : Nat) : Nat := m.kept.countP (· < place m.edits p)

/-- Where a character of the text stands in the script. -/
def plainPlace (m : Module) (p : Nat) : Nat := m.compactPlace p - Text.blankLength (compact m.editedLiterals m.edited)

/-- Whether a literal stays: it lies in no edit, and the line in which it begins after the edits is kept. -/
structure Stays (m : Module) (t : Token) : Prop where
  member : t ∈ m.tokens
  quoted : t.lexeme.isQuoted = true
  spared : m.IsSpared t
  line : ∃ start, InLine m.edited start (place m.edits t.start) ∧
    keepsLine m.editedLiterals start (lineFrom m.edited start) = true

namespace Frame

theorem length_written (frame : Frame m t lo hi) (isRead : m.IsRead) : (m.written t).length = t.stop - t.start := by
  have within := isRead.reads.within frame.member
  rw [written, List.length_take, List.length_drop]
  omega

/-- Where all that surrounds a literal stands together, the literal stands. -/
theorem isPartAt (frame : Frame m t lo hi) (isRead : m.IsRead) {text : List Char} {base : Nat}
    (same : ∀ k, lo ≤ k → k < hi → text[base + (k - lo)]? = m.text[k]?) :
    IsPartAt (m.written t) text (base + (t.start - lo)) := by
  have length := frame.length_written isRead
  have lo_le := frame.lo_le
  have lt_hi := frame.lt_hi
  have le_hi := frame.le_hi
  obtain ⟨c, last, _⟩ := frame.last
  have inside := (List.getElem?_eq_some_iff.mp ((same (hi - 1) (by omega) (by omega)).trans last)).choose
  refine Text.isPartAt_of_getElem? (by omega) fun k less => ?_
  have here := same (t.start + k) (by omega) (by omega)
  rw [written, List.getElem?_take_of_lt (by omega), List.getElem?_drop, ← here]
  congr 1
  omega

section Kept

variable (frame : Frame m t lo hi) (isRead : m.IsRead) (line : InLine m.edited start (place m.edits t.start))
  (first : Module.keepsLine m.editedLiterals start (lineFrom m.edited start) = true)
include frame isRead line first

theorem compactPlace_eq (lower : lo ≤ k) (upper : k < hi) : m.compactPlace k = m.compactPlace lo + (k - lo) := by
  rw [compactPlace, frame.place_eq isRead lower upper]
  refine countP_add (pairwise_keptPlaces _ _ _) fun j less => ?_
  have member := frame.mem_kept isRead line first (k := lo + j) (by omega) (by omega)
  rwa [frame.place_eq isRead (by omega) (by omega), Nat.add_sub_cancel_left] at member

theorem getElem?_compact (lower : lo ≤ k) (upper : k < hi) :
    (compact m.editedLiterals m.edited)[m.compactPlace lo + (k - lo)]? = m.text[k]? := by
  have member := frame.mem_kept isRead line first lower upper
  have rank := getElem?_countP (pairwise_keptPlaces _ _ _) member
  have found := congrArg (·[m.compactPlace k]?) (compact_eq m.editedLiterals m.edited)
  simp only [List.getElem?_map] at found
  rw [compactPlace, rank, Option.map_some, frame.getElem?_edited isRead lower upper] at found
  rw [← frame.compactPlace_eq isRead line first lower upper, compactPlace]
  obtain ⟨c, here, same⟩ := Option.map_eq_some_iff.mp found.symm
  rw [here, ← same]

/-- Trimming takes nothing of what surrounds a literal. -/
theorem within_trim : Text.blankLength (compact m.editedLiterals m.edited) ≤ m.compactPlace lo ∧
    m.compactPlace lo + (hi - lo) ≤ Text.blankLength (compact m.editedLiterals m.edited) + m.plainText.length := by
  have lo_le := frame.lo_le
  have lt_hi := frame.lt_hi
  obtain ⟨c, atFirst, solid⟩ := frame.first
  obtain ⟨d, atLast, solid'⟩ := frame.last
  have begins :=
    Text.within_trim ((frame.getElem?_compact isRead line first (Nat.le_refl lo) (by omega)).trans atFirst) solid
  have ends :=
    Text.within_trim ((frame.getElem?_compact isRead line first (k := hi - 1) (by omega) (by omega)).trans atLast)
      solid'
  rw [plainText]
  omega

theorem getElem?_plainText (lower : lo ≤ k) (upper : k < hi) :
    m.plainText[m.plainPlace lo + (k - lo)]? = m.text[k]? := by
  obtain ⟨begins, ends⟩ := frame.within_trim isRead line first
  rw [plainText] at ends ⊢
  rw [plainPlace, Text.getElem?_trim (by omega), ← frame.getElem?_compact isRead line first lower upper]
  congr 1
  omega

end Kept

end Frame

theorem Stays.stands (stays : m.Stays t) (isRead : m.IsRead) :
    IsPartAt (m.written t) m.edited (place m.edits t.start) ∧
      IsPartAt (m.written t) (compact m.editedLiterals m.edited) (m.compactPlace t.start) ∧
      Text.blankLength (compact m.editedLiterals m.edited) ≤ m.compactPlace t.start ∧
      IsPartAt (m.written t) m.plainText (m.plainPlace t.start) := by
  obtain ⟨lo, hi, frame⟩ := exists_frame isRead stays.member stays.quoted stays.spared
  obtain ⟨start, line, first⟩ := stays.line
  have edited : IsPartAt (m.written t) m.edited (place m.edits lo + (t.start - lo)) :=
    frame.isPartAt isRead fun k lower upper => by
      rw [← frame.place_eq isRead lower upper]
      exact frame.getElem?_edited isRead lower upper
  have compacted := frame.isPartAt isRead fun k => frame.getElem?_compact isRead line first
  have trimmed := frame.isPartAt isRead fun k => frame.getElem?_plainText isRead line first
  have begins := (frame.within_trim isRead line first).1
  have moved := frame.compactPlace_eq isRead line first frame.lo_le frame.lt_hi
  have plain : m.plainPlace t.start = m.plainPlace lo + (t.start - lo) := by
    rw [plainPlace, plainPlace, moved]
    omega
  rw [frame.place_eq isRead frame.lo_le frame.lt_hi, plain, moved]
  exact ⟨edited, compacted, by omega, trimmed⟩

/-- Literals that stay keep their order and do not overlap. -/
theorem Stays.ordered (stays : m.Stays t) (stays' : m.Stays u) (isRead : m.IsRead) (before : t.stop ≤ u.start) :
    m.compactPlace t.start + (m.written t).length ≤ m.compactPlace u.start := by
  obtain ⟨lo, hi, frame⟩ := exists_frame isRead stays.member stays.quoted stays.spared
  obtain ⟨lo', hi', frame'⟩ := exists_frame isRead stays'.member stays'.quoted stays'.spared
  obtain ⟨start, line, first⟩ := stays.line
  have order := (isRead.reads.within stays.member).1
  have free (k : Nat) (lower : t.start ≤ k) (upper : k < hi) : Free m.edits k :=
    frame.free k (Nat.le_trans frame.lo_le lower) upper
  have freeU := frame'.free u.start frame'.lo_le frame'.lt_hi
  have le_hi := frame.le_hi
  have moved (k : Nat) (less : k < t.stop - t.start) : place m.edits (t.start + k) = place m.edits t.start + k :=
    Text.Edit.place_add (apart_edits isRead) (fun j less => free _ (Nat.le_add_right _ _) (by omega)) less
  have behind : place m.edits t.start + (t.stop - t.start) ≤ place m.edits u.start := by
    rcases Nat.lt_or_ge t.start t.stop with nonempty | isEmpty
    · have last := moved (t.stop - t.start - 1) (by omega)
      have less := Text.Edit.place_lt_place (apart_edits isRead)
        (free (t.start + (t.stop - t.start - 1)) (by omega) (by omega)) freeU
        (by omega)
      omega
    · rcases Nat.lt_or_eq_of_le (show t.start ≤ u.start by omega) with less | same
      · have := Text.Edit.place_lt_place (apart_edits isRead) (free t.start (Nat.le_refl _) frame.lt_hi) freeU less
        omega
      · rw [← same]
        omega
  have members : ∀ k < t.stop - t.start, place m.edits t.start + k ∈ m.kept := fun k less =>
    moved k less ▸ frame.mem_kept isRead line first (by have := frame.lo_le; omega) (by omega)
  rw [frame.length_written isRead, compactPlace, compactPlace, ← countP_add (pairwise_keptPlaces _ _ _) members]
  exact countP_mono behind

/-- A literal that lies in no edit and begins in a line that is kept stands as it is written after the edits, when
lines are dropped, and in the script. Nothing of it is white space that trimming takes. In the script these
literals stand in the order of the text, none over another. -/
theorem literals_stay (h : parse? source = some m) :
    (∀ t, m.Stays t →
      IsPartAt (m.written t) m.edited (place m.edits t.start) ∧
        IsPartAt (m.written t) (compact m.editedLiterals m.edited) (m.compactPlace t.start) ∧
        Text.blankLength (compact m.editedLiterals m.edited) ≤ m.compactPlace t.start ∧
        IsPartAt (m.written t) m.plainText (m.plainPlace t.start)) ∧
      m.tokens.Pairwise fun t u => m.Stays t → m.Stays u →
          m.plainPlace t.start + (m.written t).length ≤ m.plainPlace u.start := by
  have isRead := isRead_of_parse h
  refine ⟨fun t stays => stays.stands isRead, isRead.reads.pairwise.imp fun before stays stays' => ?_⟩
  have ordered := stays.ordered stays' isRead before
  have begins := (stays.stands isRead).2.2.1
  rw [plainPlace, plainPlace]
  omega

/-- A piece of a template with a line that looks like a comment and a blank one stays, behind an import
that is taken out. -/
theorem chunk_stays_behind_import : ∃ m t, parse? "import 'x'\nlet s = \x60\n//\n\n\x60".toList = some m ∧ m.Stays t ∧
    m.written t = ['\n', '/', '/', '\n', '\n'] ∧ IsPartAt (m.written t) m.plainText (m.plainPlace t.start) := by
  have read : (parse? "import 'x'\nlet s = \x60\n//\n\n\x60".toList).map (fun m =>
      (m.edits, (m.tokens.filter (·.lexeme.isQuoted)).map fun t => (t.start, t.stop), m.edited)) =
        some ([.remove 0 11], [(7, 10), (20, 25)], "let s = \x60\n//\n\n\x60".toList) := by
    decide +kernel
  obtain ⟨m, h, eq⟩ := Option.map_eq_some_iff.mp read
  obtain ⟨edits, eq⟩ := Prod.mk.inj eq
  obtain ⟨literals, edited⟩ := Prod.mk.inj eq
  obtain ⟨t, found, span⟩ := List.mem_map.mp (literals ▸ show (20, 25) ∈ [(7, 10), (20, 25)] by simp)
  obtain ⟨member, quoted⟩ := List.mem_filter.mp found
  obtain ⟨start, stop⟩ := Prod.mk.inj span
  have text : m.text = "import 'x'\nlet s = \x60\n//\n\n\x60".toList := text_of_parse h
  have moved : place m.edits t.start = 9 := by
    rw [edits, start]
    decide +kernel
  have stays : m.Stays t := by
    refine ⟨member, quoted, ?_, 0, ⟨Nat.zero_le _, Or.inl rfl, fun k _ less => ?_⟩, ?_⟩
    · rw [IsSpared, edits]
      rintro e edit ⟨_, upper⟩
      obtain rfl := List.mem_singleton.mp edit
      exact absurd (stop ▸ upper) (by decide)
    · rw [moved] at less
      rw [edited]
      revert k
      decide
    · rw [edited, keepsLine, Bool.or_eq_true]
      exact Or.inr (by decide)
  refine ⟨m, t, h, stays, ?_, ((literals_stay h).1 t stays).2.2.2⟩
  rw [written, text, start, stop]
  decide

end ModuleBundler.Script.Module
