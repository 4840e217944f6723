import ModuleBundler.Proofs.Script.Lexeme
import ModuleBundler.Proofs.Script.Situation

/-!
The tokens of a script and where they stand.

`Lexer.scan` walks through a text one character at a time. `Lexer.Reads` tells the same walk token by token:
what stands before each token is white space and comments, and a piece of a template follows what opens it
immediately. Everything that is known of the places of tokens is proved by induction on this relation.
-/

namespace ModuleBundler.Script.Lexer

/-- The tokens that are read from a position on in a situation. -/
inductive Reads (text : List Char) : (position : Nat) → Situation → List Token → Prop
  | done {position s blank broken} :
      s.inTemplate = false → trivia .between s.previous.isNone (text.drop position) = some (blank, broken) →
      position + blank = text.length → Reads text position s []
  | token {position s blank broken lexeme length tokens} :
      s.inTemplate = false → trivia .between s.previous.isNone (text.drop position) = some (blank, broken) →
      lexeme? s.operandNext (text.drop (position + blank)) = some (lexeme, length) →
      Reads text (position + blank + length)
        (s.after ⟨lexeme, position + blank, position + blank + length, broken⟩) tokens →
      Reads text position s (⟨lexeme, position + blank, position + blank + length, broken⟩ :: tokens)
  | chunk {position s piece closer length closerLength tokens} :
      s.inTemplate = true → chunk? (text.drop position) = some (piece, length, closer, closerLength) →
      Reads text (position + length + closerLength)
        ((s.after ⟨piece, position, position + length, false⟩).after
          ⟨closer, position + length, position + length + closerLength, false⟩) tokens →
      Reads text position s (⟨piece, position, position + length, false⟩ ::
        ⟨closer, position + length, position + length + closerLength, false⟩ :: tokens)

section Scan

variable {text cs : List Char} {position : Nat} {s : Situation} {read tokens : List Token}

theorem scan_skip (n : Nat) (bound : n ≤ cs.length) :
    scan n position s read cs = scan 0 (position + n) s read (cs.drop n) := by
  induction n generalizing position cs with
  | zero => rfl
  | succ n ih =>
    cases cs with
    | nil => cases bound
    | cons c rest =>
      rw [scan, ih (Nat.le_of_succ_le_succ bound), List.drop_succ_cons]
      congr 1
      omega

theorem reads_of_scan (h : scan 0 position s read (text.drop position) = some tokens)
    (inside : position ≤ text.length) :
    ∃ more, tokens = read.reverse ++ more ∧ Reads text position s more := by
  induction eq : text.length - position using Nat.strongRecOn generalizing position s read with
  | ind left ih =>
    cases here : text.drop position with
    | nil =>
      have atEnd := List.drop_eq_nil_iff.mp here
      rw [here, scan] at h
      split at h
      · cases h
      · next outside =>
        cases h
        have gap : trivia .between s.previous.isNone (text.drop position) = some (0, s.previous.isNone) := by
          rw [here]
          rfl
        exact ⟨[], (List.append_nil _).symm, .done (by simpa using outside) gap (by omega)⟩
    | cons c rest =>
      have length := congrArg List.length here
      rw [List.length_drop, List.length_cons] at length
      have next : rest = text.drop (position + 1) := by
        rw [← List.drop_drop, here]
        rfl
      rw [here, scan] at h
      split at h
      · next inTemplate =>
        split at h
        · cases h
        · next piece n closer k read' =>
          obtain ⟨_, _, _, _, pos, bound, _⟩ := chunk_closes read'
          rw [List.length_drop, List.length_cons] at bound
          rw [scan_skip _ (by omega), next, List.drop_drop,
            show position + 1 + (n + k - 1) = position + n + k by omega] at h
          obtain ⟨more, same, reads⟩ := ih _ (by omega) h (by omega) rfl
          refine ⟨_, ?_, .chunk inTemplate (here ▸ read') reads⟩
          rw [same]
          simp
      · next outside =>
        split at h
        · cases h
        · next blank broken gap =>
          have gapBound := trivia_le_length gap
          have after : (c :: rest).drop blank = text.drop (position + blank) := by
            rw [← here, List.drop_drop]
          split at h
          · next atEnd =>
            have behind := List.drop_eq_nil_iff.mp atEnd
            rw [List.length_cons] at behind gapBound
            cases h
            exact ⟨[], (List.append_nil _).symm, .done (by simpa using outside) (here ▸ gap) (by omega)⟩
          · split at h
            · cases h
            · next lexeme n isLexeme =>
              rw [after] at isLexeme
              obtain ⟨pos, bound, _⟩ := isText_lexeme isLexeme
              rw [List.length_drop] at bound
              rw [scan_skip _ (by omega), next, List.drop_drop,
                show position + 1 + (blank + n - 1) = position + blank + n by omega] at h
              obtain ⟨more, same, reads⟩ := ih _ (by omega) h (by omega) rfl
              refine ⟨_, ?_, .token (by simpa using outside) (here ▸ gap) isLexeme reads⟩
              rw [same]
              simp

/-- The walk goes on behind a token, whatever follows it. -/
theorem scan_token {blank length : Nat} {broken : Bool} {lexeme : Lexeme} (outside : s.inTemplate = false)
    (gap : trivia .between s.previous.isNone cs = some (blank, broken))
    (isLexeme : lexeme? s.operandNext (cs.drop blank) = some (lexeme, length)) :
    scan 0 position s read cs =
      scan 0 (position + blank + length) (s.after ⟨lexeme, position + blank, position + blank + length, broken⟩)
        (⟨lexeme, position + blank, position + blank + length, broken⟩ :: read) (cs.drop (blank + length)) := by
  obtain ⟨pos, bound, _⟩ := isText_lexeme isLexeme
  rw [List.length_drop] at bound
  cases here : cs.drop blank with
  | nil =>
    rw [here] at isLexeme
    cases isLexeme
  | cons d more =>
    cases cs with
    | nil => simp at here
    | cons c rest =>
      rw [List.length_cons] at bound
      rw [scan, if_neg (by simp [outside]), gap]
      simp only [here]
      rw [← here, isLexeme]
      simp only
      rw [scan_skip _ (by omega)]
      obtain ⟨n, total⟩ := Nat.exists_eq_add_one.mpr (show 0 < blank + length by omega)
      rw [total, List.drop_succ_cons, Nat.add_sub_cancel]
      congr 1
      omega

theorem hashBang_le (cs : List Char) : hashBang cs ≤ cs.length := by
  fun_cases hashBang cs with
  | case1 rest =>
    have line := (List.takeWhile_prefix (l := rest) fun c => !Text.isLineBreak c).length_le
    simp only [List.length_cons]
    omega
  | case2 => exact Nat.zero_le _

/-- The tokens of a script are read from behind its first line, if that names a program to run. -/
theorem reads_tokenize (h : tokenize? text = some tokens) : Reads text (hashBang text) .initial tokens := by
  have bound := hashBang_le text
  rw [tokenize?, scan_skip _ bound, Nat.zero_add] at h
  obtain ⟨more, same, reads⟩ := reads_of_scan h bound
  rwa [same]

end Scan

section Places

variable {text : List Char} {position p : Nat} {s : Situation} {tokens : List Token} {t : Token}

theorem Reads.le_length (reads : Reads text position s tokens) : position ≤ text.length := by
  induction reads with
  | done _ _ atEnd => omega
  | token _ _ _ _ ih | chunk _ _ _ ih => omega

theorem Reads.position_le (reads : Reads text position s tokens) (member : t ∈ tokens) : position ≤ t.start := by
  induction reads with
  | done => cases member
  | token _ _ _ _ ih =>
    rcases List.mem_cons.mp member with rfl | later
    · exact Nat.le_add_right _ _
    · have := ih later
      omega
  | chunk _ _ _ ih =>
    rcases List.mem_cons.mp member with rfl | later
    · exact Nat.le_refl _
    · rcases List.mem_cons.mp later with rfl | later
      · exact Nat.le_add_right _ _
      · have := ih later
        omega

theorem Reads.within (reads : Reads text position s tokens) (member : t ∈ tokens) :
    t.start ≤ t.stop ∧ t.stop ≤ text.length := by
  induction reads with
  | done => cases member
  | token _ _ _ rest ih =>
    rcases List.mem_cons.mp member with rfl | later
    · exact ⟨Nat.le_add_right _ _, rest.le_length⟩
    · exact ih later
  | chunk _ _ rest ih =>
    have bound := rest.le_length
    rcases List.mem_cons.mp member with rfl | later
    · exact ⟨Nat.le_add_right _ _, by simp only; omega⟩
    · rcases List.mem_cons.mp later with rfl | later
      · exact ⟨Nat.le_add_right _ _, bound⟩
      · exact ih later

/-- The tokens stand one behind the other. -/
theorem Reads.pairwise (reads : Reads text position s tokens) : tokens.Pairwise fun a b => a.stop ≤ b.start := by
  induction reads with
  | done => exact .nil
  | token _ _ _ rest ih => exact .cons (fun _ later => rest.position_le later) ih
  | chunk _ _ rest ih =>
    refine .cons (fun _ later => ?_) (.cons (fun _ later => rest.position_le later) ih)
    rcases List.mem_cons.mp later with rfl | later
    · exact Nat.le_refl _
    · have := rest.position_le later
      simp only
      omega

theorem Reads.stop_le (reads : Reads text position s tokens) {front back : List Token} {w : Token}
    (eq : tokens = front ++ w :: back) (member : t ∈ front) : t.stop ≤ w.start := by
  have order := reads.pairwise
  rw [eq, List.pairwise_append] at order
  exact order.2.2 t member w List.mem_cons_self

theorem Reads.le_start (reads : Reads text position s tokens) {front back : List Token} {w : Token}
    (eq : tokens = front ++ w :: back) (member : t ∈ back) : w.stop ≤ t.start := by
  have order := reads.pairwise
  rw [eq, List.pairwise_append, List.pairwise_cons] at order
  exact order.2.1.1 t member

/-- Where a token stands that is no piece of a template, no comment begins. -/
theorem Reads.isText (reads : Reads text position s tokens) (member : t ∈ tokens)
    (noChunk : t.lexeme.isChunk = false) :
    IsSolid (text.drop t.start) ∧ IsText t.lexeme (text.drop t.start) (t.stop - t.start) := by
  induction reads with
  | done => cases member
  | token _ gap isLexeme _ ih =>
    rcases List.mem_cons.mp member with rfl | later
    · have solid := isSolid_drop_trivia gap
      rw [List.drop_drop] at solid
      rw [Nat.add_sub_cancel_left]
      exact ⟨solid, isText_lexeme isLexeme⟩
    · exact ih later
  | chunk _ isChunk _ ih =>
    obtain ⟨piece, _, _, solid, isText⟩ := chunk_closes isChunk
    rw [List.drop_drop] at solid isText
    rcases List.mem_cons.mp member with rfl | later
    · rw [piece] at noChunk
      cases noChunk
    · rcases List.mem_cons.mp later with rfl | later
      · rw [Nat.add_sub_cancel_left]
        exact ⟨solid, isText⟩
      · exact ih later

/-- Each token but a piece of a template and what closes it is read where it stands. -/
theorem Reads.isLexeme (reads : Reads text position s tokens) (member : t ∈ tokens)
    (noChunk : t.lexeme.isChunk = false)
    (noCloser : t.lexeme ≠ .mark .backtick ∧ t.lexeme ≠ .mark .dollarBrace) :
    ∃ operandNext, lexeme? operandNext (text.drop t.start) = some (t.lexeme, t.stop - t.start) := by
  induction reads with
  | done => cases member
  | token _ _ isLexeme _ ih =>
    rcases List.mem_cons.mp member with rfl | later
    · exact ⟨_, by rw [Nat.add_sub_cancel_left]; exact isLexeme⟩
    · exact ih later
  | chunk _ isChunk _ ih =>
    obtain ⟨piece, closes, _⟩ := chunk_closes isChunk
    rcases List.mem_cons.mp member with rfl | later
    · rw [piece] at noChunk
      cases noChunk
    · rcases List.mem_cons.mp later with rfl | later
      · exact absurd closes (by simpa using noCloser)
      · exact ih later

/-- What stands between two tokens, or before the first or behind the last one. -/
structure IsGap (text : List Char) (tokens : List Token) (lo hi : Nat) : Prop where
  le : lo ≤ hi
  blank : ∃ broken after, trivia .between broken (text.drop lo) = some (hi - lo, after)
  clear : ∀ t ∈ tokens, t.stop ≤ lo ∨ hi ≤ t.start

theorem IsGap.cons {lo hi : Nat} (gap : IsGap text tokens lo hi) (before : t.stop ≤ lo) :
    IsGap text (t :: tokens) lo hi where
  le := gap.le
  blank := gap.blank
  clear u member := by
    rcases List.mem_cons.mp member with rfl | later
    · exact Or.inl before
    · exact gap.clear u later

/-- Each place belongs to a token or to what stands between tokens. -/
theorem Reads.token_or_gap (reads : Reads text position s tokens) (behind : position ≤ p) (inside : p < text.length) :
    (∃ t ∈ tokens, t.start ≤ p ∧ p < t.stop) ∨
      ∃ lo hi, position ≤ lo ∧ lo ≤ p ∧ p < hi ∧ IsGap text tokens lo hi := by
  induction reads with
  | @done position s blank broken _ gap atEnd =>
    have whole : IsGap text [] position (position + blank) :=
      ⟨Nat.le_add_right _ _, ⟨_, _, by rw [Nat.add_sub_cancel_left]; exact gap⟩, fun _ none => by cases none⟩
    exact Or.inr ⟨_, _, Nat.le_refl _, behind, by omega, whole⟩
  | @token position s blank broken lexeme length tokens _ gap _ rest ih =>
    by_cases before : p < position + blank
    · refine Or.inr ⟨position, position + blank, Nat.le_refl _, behind, before, Nat.le_add_right _ _, ?_,
        fun t member => ?_⟩
      · exact ⟨_, _, by rw [Nat.add_sub_cancel_left]; exact gap⟩
      · rcases List.mem_cons.mp member with rfl | later
        · exact Or.inr (Nat.le_refl _)
        · have := rest.position_le later
          omega
    · by_cases within : p < position + blank + length
      · exact Or.inl ⟨_, List.mem_cons_self, by simp only; omega, within⟩
      · rcases ih (by omega) with ⟨t, member, here⟩ | ⟨lo, hi, lower, above, below, gap⟩
        · exact Or.inl ⟨t, List.mem_cons_of_mem _ member, here⟩
        · exact Or.inr ⟨lo, hi, by omega, above, below, gap.cons lower⟩
  | @chunk position s piece closer length closerLength tokens _ _ rest ih =>
    by_cases first : p < position + length
    · exact Or.inl ⟨_, List.mem_cons_self, behind, first⟩
    · by_cases second : p < position + length + closerLength
      · exact Or.inl ⟨_, List.mem_cons_of_mem _ List.mem_cons_self, by simp only; omega, second⟩
      · rcases ih (by omega) with ⟨t, member, here⟩ | ⟨lo, hi, lower, above, below, gap⟩
        · exact Or.inl ⟨t, List.mem_cons_of_mem _ (List.mem_cons_of_mem _ member), here⟩
        · refine Or.inr ⟨lo, hi, by omega, above, below, (gap.cons lower).cons ?_⟩
          simp only
          omega

end Places

section Order

variable {text : List Char} {position : Nat} {s : Situation} {front back tokens : List Token} {w : Token}

theorem Reads.head_chunk (reads : Reads text position s (w :: back)) (isChunk : w.lexeme.isChunk = true) :
    s.inTemplate = true ∧ w.start = position := by
  cases reads with
  | token _ _ isLexeme _ =>
    rw [(isText_lexeme isLexeme).noChunk] at isChunk
    cases isChunk
  | chunk inside _ _ => exact ⟨inside, rfl⟩

/-- Behind a piece of a template stands what closes it. Behind any other token the walk goes on. -/
theorem Reads.behind (reads : Reads text position s tokens) (nested : s.Nested) (eq : tokens = front ++ w :: back) :
    (w.lexeme.isChunk = true ∧
        (∃ closer rest, back = closer :: rest ∧ closer.start = w.stop ∧
          (closer.lexeme = .mark .backtick ∨ closer.lexeme = .mark .dollarBrace)) ∧
        ∃ c rest, (c = '\x60' ∨ c = '$') ∧ text.drop w.stop = c :: rest) ∨
      (w.lexeme.isChunk = false ∧ ∃ s' : Situation, s'.Nested ∧ (s'.inTemplate = true → Situation.LeadsIn w.lexeme) ∧
        s'.previous = some w.lexeme ∧ Reads text w.stop s' back) := by
  induction reads generalizing front with
  | done => simp at eq
  | @token position s blank broken lexeme length tokens outside _ isLexeme rest ih =>
    cases front with
    | nil =>
      cases eq
      refine Or.inr ⟨(isText_lexeme isLexeme).noChunk, _, nested.after outside _, fun inside => ?_, rfl, rest⟩
      exact Situation.leadsIn_of_inTemplate outside (Situation.turns_after _)
        (by simpa [Situation.inTemplate] using inside)
    | cons first front =>
      cases eq
      exact ih (nested.after outside _) rfl
  | @chunk position s piece closer length closerLength tokens inside isChunk rest ih =>
    obtain ⟨isPiece, closes, atCloser, _, isText⟩ := chunk_closes isChunk
    have regions := Situation.after_chunk_regions (s := s) (t := ⟨piece, position, position + length, false⟩) isPiece
    have inner : (s.after ⟨piece, position, position + length, false⟩).Nested := by
      rw [Situation.Nested, regions]
      exact nested
    have inTemplate : (s.after ⟨piece, position, position + length, false⟩).inTemplate = true := by
      rw [Situation.inTemplate, regions]
      exact inside
    obtain ⟨outer, outside⟩ := Situation.after_closer (t :=
      ⟨closer, position + length, position + length + closerLength, false⟩)
      inner inTemplate closes
    cases front with
    | nil =>
      cases eq
      rw [List.drop_drop] at atCloser
      exact Or.inl ⟨isPiece, ⟨_, _, rfl, rfl, closes⟩, atCloser⟩
    | cons first front =>
      cases front with
      | nil =>
        cases eq
        refine Or.inr ⟨isText.noChunk, _, outer, fun inside => ?_, rfl, rest⟩
        rw [outside] at inside
        cases inside
      | cons second front =>
        cases eq
        exact ih outer rfl

/-- A piece of a template stands right behind what leads into it. -/
theorem Reads.before_chunk (reads : Reads text position s tokens) (nested : s.Nested) (outside : s.inTemplate = false)
    (eq : tokens = front ++ w :: back) (isChunk : w.lexeme.isChunk = true) :
    ∃ before v, front = before ++ [v] ∧ Situation.LeadsIn v.lexeme ∧ w.start = v.stop := by
  rcases List.eq_nil_or_concat front with rfl | ⟨before, v, rfl⟩
  · subst eq
    obtain ⟨inside, _⟩ := reads.head_chunk isChunk
    rw [outside] at inside
    cases inside
  · rw [List.concat_eq_append, List.append_assoc] at eq
    rcases reads.behind nested eq with ⟨_, ⟨closer, rest, same, _, closes⟩, _⟩ | ⟨_, s', _, leads, _, rest⟩
    · cases same
      rcases closes with here | here <;> rw [here] at isChunk <;> cases isChunk
    · obtain ⟨inside, start⟩ := rest.head_chunk isChunk
      exact ⟨before, v, List.concat_eq_append, leads inside, start⟩

theorem Reads.token_cases (reads : Reads text position s (w :: back)) (outside : s.inTemplate = false) :
    Reads text w.stop (s.after w) back := by
  cases reads with
  | token _ _ _ rest => exact rest
  | chunk inside =>
    rw [outside] at inside
    cases inside

/-- No piece of a template follows parentheses that hold no others. -/
theorem Reads.behind_parens {opener closer next : Token} {held : List Token} (reads : Reads text position s tokens)
    (nested : s.Nested) (eq : tokens = front ++ w :: opener :: (held ++ closer :: next :: back))
    (noLead : ¬Situation.LeadsIn w.lexeme) (noChunk : w.lexeme.isChunk = false)
    (opens : opener.lexeme = .mark .parenL)
    (passes : ∀ t ∈ held, Situation.Passes t.lexeme) (closes : closer.lexeme = .mark .parenR) :
    next.lexeme.isChunk = false := by
  rcases reads.behind nested eq with ⟨isChunk, _⟩ | ⟨_, s', _, leads, _, rest⟩
  · rw [isChunk] at noChunk
    cases noChunk
  · have outside : s'.inTemplate = false := by
      by_contra inside
      exact noLead (leads (by simpa using inside))
    obtain ⟨region, isParens, regions⟩ := Situation.after_parenL (s := s') opens
    have noTemplate : region ≠ .template := by
      rcases isParens with rfl | ⟨_, rfl⟩ <;> simp
    have inner := rest.token_cases outside
    generalize s'.after opener = u at inner regions
    generalize opener.stop = place at inner
    clear eq rest
    induction held generalizing u place with
    | nil =>
      have open_ : u.inTemplate = false := by simp [Situation.inTemplate, regions, noTemplate]
      have last := inner.token_cases open_
      by_contra isChunk
      obtain ⟨inside, _⟩ := last.head_chunk (by simpa using isChunk)
      rw [Situation.inTemplate] at inside
      rcases Situation.after_parenR isParens regions closes with same | same
      · rw [same, ← Situation.inTemplate, outside] at inside
        cases inside
      · simp [same, noTemplate] at inside
    | cons t held ih =>
      have open_ : u.inTemplate = false := by simp [Situation.inTemplate, regions, noTemplate]
      have kept := Situation.after_passing (s := u) (passes t List.mem_cons_self)
      exact ih (fun v later => passes v (List.mem_cons_of_mem _ later)) (u.after t) (kept.trans regions) t.stop
        (inner.token_cases open_)

end Order

end ModuleBundler.Script.Lexer
