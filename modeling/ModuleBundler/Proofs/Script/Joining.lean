import ModuleBundler.Proofs.Script.Locality

/-!
Texts one behind the other.

White space and comments at the end of a text go on in a line that follows, and every token of the text is read as
before. If the lexer has come to rest at the end, it goes on behind the text as it would go on at the beginning of
one.
-/

namespace ModuleBundler.Script

/-- A token in a text that stands further back. -/
def Token.moved (distance : Nat) (t : Token) : Token :=
  { t with start := t.start + distance, stop := t.stop + distance }

namespace Lexer

variable {cs rest more text : List Char} {n position : Nat}

section Trivia

variable {mode : TriviaMode} {broken after : Bool}

theorem further_further (a b : Nat) (found : Option (Nat × Bool)) :
    trivia.further a (trivia.further b found) = trivia.further (b + a) found := by
  cases found with
  | none => rfl
  | some found => simp [trivia.further, Nat.add_assoc]

theorem isMergeMark_append (cs rest : List Char) : isMergeMark (cs ++ '\n' :: rest) = isMergeMark cs := by
  unfold isMergeMark
  rw [isPrefixOf_append_newline (by decide), isPrefixOf_append_newline (by decide),
    isPrefixOf_append_newline (by decide)]

theorem further_ite {k m total : Nat} {found next : Option (Nat × Bool)}
    (same : found = if m < total then some (m, after) else trivia.further (m + 1) next) :
    trivia.further k found = if m + k < total + k then some (m + k, after) else trivia.further (m + k + 1) next := by
  rw [same]
  by_cases inside : m < total
  · rw [if_pos inside, if_pos (by omega)]
    rfl
  · rw [if_neg inside, if_neg (by omega), further_further, Nat.add_right_comm]

-- The patterns of the modes overlap, so what comes of a character is told by the cases of the function rather
-- than by its
-- equations.
theorem trivia_block {c : Char} (open_ : ∀ more, c = '*' → cs = '/' :: more → False) :
    trivia .block broken (c :: cs) = trivia.further 1 (trivia .block (broken || Text.isLineBreak c) cs) := by
  generalize eq : c :: cs = text
  generalize isBlock : TriviaMode.block = mode
  fun_cases trivia mode broken text
  all_goals simp_all

theorem trivia_line {c : Char} : trivia .line broken (c :: cs) =
    if Text.isLineBreak c then trivia.further 1 (trivia .between true cs)
      else trivia.further 1 (trivia .line broken cs) := rfl

/-- Whether no comment but the rest of a merge begins with a character. -/
structure NoComment (broken : Bool) (c : Char) (cs : List Char) : Prop where
  noLine : ∀ more, c = '/' → cs = '/' :: more → False
  noBlock : ∀ more, c = '/' → cs = '*' :: more → False
  noOpen : ∀ more, c = '<' → cs = '!' :: '-' :: '-' :: more → False
  noClose : ∀ more, broken = true → c = '-' → cs = '-' :: '>' :: more → False

theorem NoComment.append {c : Char} (clear : NoComment broken c cs) (rest : List Char) :
    NoComment broken c (cs ++ '\n' :: rest) where
  noLine _ first eq :=
    have ⟨others, same⟩ := leads_of_append ['/'] (by decide) eq
    clear.noLine others first same
  noBlock _ first eq :=
    have ⟨others, same⟩ := leads_of_append ['*'] (by decide) eq
    clear.noBlock others first same
  noOpen _ first eq :=
    have ⟨others, same⟩ := leads_of_append ['!', '-', '-'] (by decide) eq
    clear.noOpen others first same
  noClose _ begins first eq :=
    have ⟨others, same⟩ := leads_of_append ['-', '>'] (by decide) eq
    clear.noClose others begins first same

theorem trivia_noComment {c : Char} (clear : NoComment broken c cs) : trivia .between broken (c :: cs) =
    if Text.isScriptBlank c then trivia.further 1 (trivia .between (broken || Text.isLineBreak c) cs)
    else if broken && isMergeMark (c :: cs) then trivia.further 1 (trivia .line true cs)
    else some (0, broken) := by
  obtain ⟨noLine, noBlock, noOpen, noClose⟩ := clear
  generalize eq : c :: cs = text
  generalize isBetween : TriviaMode.between = mode
  fun_cases trivia mode broken text
  all_goals simp_all

/-- White space and comments at the end of a text go on in the next line. Others end where they did. -/
theorem trivia_append (h : trivia mode broken cs = some (n, after)) (rest : List Char) :
    trivia mode broken (cs ++ '\n' :: rest) =
      if n < cs.length then some (n, after) else trivia.further (n + 1) (trivia .between true rest) := by
  fun_induction trivia mode broken cs generalizing n with
  | case1 => cases h
  | case2 mode broken noBlock =>
    cases h
    cases mode with
    | block => exact absurd rfl noBlock
    | line => rfl
    | between =>
      have clear : NoComment after '\n' rest := ⟨by simp, by simp, by simp, by simp⟩
      rw [List.nil_append, trivia_noComment clear, if_pos (by decide),
        show Text.isLineBreak '\n' = true from rfl, Bool.or_true]
      rfl
  | case3 broken tail ih =>
    obtain ⟨m, found, rfl⟩ := further_eq_some h
    exact further_ite (ih found)
  | case4 broken c tail open_ ih =>
    obtain ⟨m, found, rfl⟩ := further_eq_some h
    rw [List.cons_append, trivia_block]
    · exact further_ite (ih found)
    · intro more star eq
      obtain ⟨others, same⟩ := leads_of_append ['/'] (by decide) eq
      exact open_ others star same
  | case5 broken c tail isBreak ih =>
    obtain ⟨m, found, rfl⟩ := further_eq_some h
    rw [List.cons_append, trivia_line, if_pos isBreak]
    exact further_ite (ih found)
  | case6 broken c tail noBreak ih =>
    obtain ⟨m, found, rfl⟩ := further_eq_some h
    rw [List.cons_append, trivia_line, if_neg noBreak]
    exact further_ite (ih found)
  | case7 broken tail ih | case8 broken tail ih | case9 broken tail ih | case10 tail ih =>
    obtain ⟨m, found, rfl⟩ := further_eq_some h
    exact further_ite (ih found)
  | case11 broken c tail noLine noBlock noOpen noClose blank ih =>
    obtain ⟨m, found, rfl⟩ := further_eq_some h
    have clear : NoComment broken c tail := ⟨noLine, noBlock, noOpen, noClose⟩
    rw [List.cons_append, trivia_noComment (clear.append rest), if_pos blank]
    exact further_ite (ih found)
  | case12 broken c tail noLine noBlock noOpen noClose blank mark ih =>
    obtain ⟨m, found, rfl⟩ := further_eq_some h
    have clear : NoComment broken c tail := ⟨noLine, noBlock, noOpen, noClose⟩
    rw [← isMergeMark_append (c :: tail) rest, List.cons_append] at mark
    rw [List.cons_append, trivia_noComment (clear.append rest), if_neg blank, if_pos mark]
    exact further_ite (ih found)
  | case13 broken c tail noLine noBlock noOpen noClose blank mark =>
    cases h
    have clear : NoComment after c tail := ⟨noLine, noBlock, noOpen, noClose⟩
    rw [← isMergeMark_append (c :: tail) rest, List.cons_append] at mark
    rw [List.cons_append, trivia_noComment (clear.append rest), if_neg blank, if_neg mark, if_pos (by simp)]

/-- Where a line has ended, it has ended for all that follows. -/
theorem after_of_broken (h : trivia mode broken cs = some (n, after)) (begun : broken = true) : after = true := by
  fun_induction trivia mode broken cs generalizing n with
  | case1 => cases h
  | case2 | case13 =>
    cases h
    exact begun
  | case3 _ _ ih | case7 _ _ ih | case8 _ _ ih | case9 _ _ ih | case6 _ _ _ _ ih =>
    obtain ⟨m, found, rfl⟩ := further_eq_some h
    exact ih found begun
  | case5 _ _ _ _ ih | case10 _ ih | case12 _ _ _ _ _ _ _ _ _ ih =>
    obtain ⟨m, found, rfl⟩ := further_eq_some h
    exact ih found rfl
  | case4 _ _ _ _ ih | case11 _ _ _ _ _ _ _ _ ih =>
    obtain ⟨m, found, rfl⟩ := further_eq_some h
    exact ih found (by rw [begun, Bool.true_or])

end Trivia

namespace Situation

variable {s : Situation} {t : Token}

/-- Whether nothing is open and the lexer goes on, in a new line, as at the beginning of a text. -/
structure Rests (s : Situation) : Prop where
  regions : s.regions = initial.regions
  operandNext : s.operandNext = true
  previous : s.previous = none ∨ s.previous = some (.mark .semicolon) ∨ s.previous = some (.mark .braceR)

instance : Decidable s.Rests :=
  decidable_of_iff (s.regions = initial.regions ∧ s.operandNext = true ∧
      (s.previous = none ∨ s.previous = some (.mark .semicolon) ∨ s.previous = some (.mark .braceR)))
    ⟨fun all => ⟨all.1, all.2.1, all.2.2⟩, fun rests => ⟨rests.regions, rests.operandNext, rests.previous⟩⟩

theorem rests_initial : initial.Rests := ⟨rfl, rfl, Or.inl rfl⟩

theorem Rests.outside (rests : s.Rests) : s.inTemplate = false := by
  rw [inTemplate, rests.regions]
  rfl

theorem after_of_rests (rests : s.Rests) (newLine : t.afterBreak = true) : s.after t = initial.after t := by
  obtain ⟨regions, previous, operandNext, previousAfterBreak⟩ := s
  obtain ⟨lexeme, start, stop, afterBreak⟩ := t
  obtain ⟨rfl, rfl, isPrevious⟩ := rests
  obtain rfl : afterBreak = true := newLine
  -- A brace in a new line opens a block in all three cases, and nothing else looks at the token before.
  have advance_eq : (Situation.mk initial.regions previous true previousAfterBreak).advance lexeme true =
      initial.advance lexeme true := by
    rcases isPrevious with rfl | rfl | rfl
    all_goals
      cases lexeme with
      | keyword k => cases k <;> rfl
      | name spelling => simp [advance, startsDeclaredLine, initial]
      | mark m => cases m <;> rfl
      | number | text | regex | chunk => rfl
  rw [after, after, advance_eq]

end Situation

section Walk

variable {s : Situation} {read tokens : List Token}

/-- The walk outside of templates, one token at a time. -/
theorem scan_outside (outside : s.inTemplate = false) : scan 0 position s read cs =
    (trivia .between s.previous.isNone cs).bind fun gap =>
      if cs.drop gap.1 = [] then some read.reverse
      else (lexeme? s.operandNext (cs.drop gap.1)).bind fun found =>
        scan 0 (position + gap.1 + found.2)
          (s.after ⟨found.1, position + gap.1, position + gap.1 + found.2, gap.2⟩)
          (⟨found.1, position + gap.1, position + gap.1 + found.2, gap.2⟩ :: read) (cs.drop (gap.1 + found.2)) := by
  cases cs with
  | nil =>
    have gap : trivia .between s.previous.isNone [] = some (0, s.previous.isNone) := rfl
    rw [gap, scan, outside]
    rfl
  | cons c rest =>
    cases gap : trivia .between s.previous.isNone (c :: rest) with
    | none =>
      rw [scan, outside, gap]
      rfl
    | some found =>
      obtain ⟨blank, broken⟩ := found
      rw [Option.bind_some]
      simp only
      by_cases atEnd : (c :: rest).drop blank = []
      · rw [if_pos atEnd, scan, outside, gap]
        simp only [atEnd]
        rfl
      · rw [if_neg atEnd]
        cases isLexeme : lexeme? s.operandNext ((c :: rest).drop blank) with
        | none =>
          obtain ⟨d, more, next⟩ := List.exists_cons_of_ne_nil atEnd
          rw [next] at isLexeme
          rw [scan, outside, gap]
          simp only [next, isLexeme]
          rfl
        | some found => exact scan_token outside gap isLexeme

theorem scan_chunk {piece closer : Lexeme} {k : Nat} (inside : s.inTemplate = true)
    (isChunk : chunk? cs = some (piece, n, closer, k)) :
    scan 0 position s read cs =
      scan 0 (position + n + k)
        ((s.after ⟨piece, position, position + n, false⟩).after ⟨closer, position + n, position + n + k, false⟩)
        (⟨closer, position + n, position + n + k, false⟩ :: ⟨piece, position, position + n, false⟩ :: read)
        (cs.drop (n + k)) := by
  obtain ⟨_, _, _, _, pos, bound, _⟩ := chunk_closes isChunk
  rw [List.length_drop] at bound
  cases cs with
  | nil => simp at bound; omega
  | cons c rest =>
    rw [List.length_cons] at bound
    rw [scan, if_pos inside, isChunk]
    simp only
    rw [scan_skip _ (by omega)]
    obtain ⟨m, total⟩ := Nat.exists_eq_add_one.mpr (show 0 < n + k by omega)
    rw [total, List.drop_succ_cons, Nat.add_sub_cancel]
    congr 1
    omega

/-- Behind white space and comments with the end of a line, the walk goes on as at the beginning of a text. -/
theorem scan_restart {front : List Char} (rests : s.Rests)
    (gap : trivia .between s.previous.isNone (front ++ rest) =
      trivia.further front.length (trivia .between true rest)) :
    scan 0 position s read (front ++ rest) = scan 0 (position + front.length) .initial read rest := by
  rw [scan_outside rests.outside, scan_outside Situation.rests_initial.outside, gap, rests.operandNext]
  change _ = (trivia .between true rest).bind _
  cases isGap : trivia .between true rest with
  | none => rfl
  | some found =>
    obtain ⟨blank, broken⟩ := found
    obtain rfl : broken = true := after_of_broken isGap rfl
    rw [show trivia.further front.length (some (blank, true)) =
      some (blank + front.length, true) from rfl, Option.bind_some, Option.bind_some]
    have behind : (front ++ rest).drop (blank + front.length) = rest.drop blank := by
      rw [Nat.add_comm, ← List.drop_drop, List.drop_left]
    simp only [behind]
    by_cases atEnd : rest.drop blank = []
    · rw [if_pos atEnd, if_pos atEnd]
    · rw [if_neg atEnd, if_neg atEnd]
      change (lexeme? true (rest.drop blank)).bind _ = (lexeme? true (rest.drop blank)).bind _
      congr 1
      funext found
      -- The token begins a line on both sides, so the situation behind it does not tell the sides apart either.
      have place : position + (blank + front.length) = position + front.length + blank := by omega
      have later : (front ++ rest).drop (blank + front.length + found.2) = rest.drop (blank + found.2) := by
        rw [← List.drop_drop, behind, List.drop_drop]
      rw [place, later, Situation.after_of_rests rests rfl]

theorem scan_newline (position : Nat) (read : List Token) (rest : List Char) :
    scan 0 position .initial read ('\n' :: rest) = scan 0 (position + 1) .initial read rest := by
  have nothing : trivia .between true [] = some (0, true) := rfl
  have gap := trivia_append nothing rest
  rw [← List.singleton_append]
  exact scan_restart Situation.rests_initial gap

/-- What may stand behind a text without a change to its tokens: nothing, or a further line. -/
def IsApart (more : List Char) : Prop := ∀ c ∈ more.head?, c = '\n'

theorem isApart_newline (rest : List Char) : IsApart ('\n' :: rest) := fun _ first => (Option.some.inj first).symm

theorem isApart_cases (apart : IsApart more) : more = [] ∨ ∃ rest, more = '\n' :: rest := by
  cases more with
  | nil => exact Or.inl rfl
  | cons c rest => exact Or.inr ⟨rest, by rw [apart c rfl]⟩

theorem IsApart.lexeme? {operandNext : Bool} {lexeme : Lexeme} (apart : IsApart more)
    (h : lexeme? operandNext cs = some (lexeme, n)) : Lexer.lexeme? operandNext (cs ++ more) = some (lexeme, n) := by
  rcases isApart_cases apart with rfl | ⟨rest, rfl⟩
  · rwa [List.append_nil]
  · exact lexeme?_append h rest

theorem IsApart.trivia {mode : TriviaMode} {broken after : Bool} (apart : IsApart more)
    (h : trivia mode broken cs = some (n, after)) (less : n < cs.length) :
    Lexer.trivia mode broken (cs ++ more) = some (n, after) := by
  rcases isApart_cases apart with rfl | ⟨rest, rfl⟩
  · rwa [List.append_nil]
  · rw [trivia_append h, if_pos less]

/-- The situation behind some tokens. -/
def Situation.behind (s : Situation) (tokens : List Token) : Situation := tokens.foldl Situation.after s

theorem Situation.after_moved (s : Situation) (d : Nat) (t : Token) : s.after (t.moved d) = s.after t := rfl

/-- The tokens of a text are read from it where it stands in another one, up to the white space
and the comments at its end. -/
theorem Reads.scan_eq (reads : Reads text position s tokens) (apart : IsApart more) (d : Nat) (read : List Token) :
    ∃ place after, place ≤ text.length ∧ (s.behind tokens).inTemplate = false ∧
      Lexer.trivia .between (s.behind tokens).previous.isNone (text.drop place) = some (text.length - place, after) ∧
      scan 0 (position + d) s read (text.drop position ++ more) =
        scan 0 (place + d) (s.behind tokens) ((tokens.map (Token.moved d)).reverse ++ read)
            (text.drop place ++ more) := by
  induction reads generalizing read with
  | @done position s blank broken outside gap atEnd =>
    exact ⟨position, broken, by omega, outside, by rw [← atEnd, Nat.add_sub_cancel_left]; exact gap, rfl⟩
  | @token position s blank broken lexeme length tokens outside gap isLexeme rest ih =>
    let token : Token := ⟨lexeme, position + blank, position + blank + length, broken⟩
    obtain ⟨place, after, inside, outside', gap', later⟩ := ih (token.moved d :: read)
    refine ⟨place, after, inside, outside', gap', ?_⟩
    obtain ⟨pos, bound, _⟩ := isText_lexeme isLexeme
    rw [List.length_drop] at bound
    have less : blank < (text.drop position).length := by
      rw [List.length_drop]
      omega
    have behind (k : Nat) (inside : position + k ≤ text.length) :
        (text.drop position ++ more).drop k = text.drop (position + k) ++ more := by
      rw [List.drop_append_of_le_length (by rw [List.length_drop]; omega), List.drop_drop]
    have isLexeme' := apart.lexeme? isLexeme
    rw [← behind blank (by omega)] at isLexeme'
    have moved : (⟨lexeme, position + d + blank, position + d + blank + length, broken⟩ : Token) = token.moved d := by
      simp only [token, Token.moved, Token.mk.injEq, true_and, and_true]
      omega
    rw [scan_token outside (apart.trivia gap less) isLexeme', moved, behind (blank + length) (by omega),
      show position + d + blank + length = position + blank + length + d by omega, ← Nat.add_assoc position,
      Situation.after_moved, later, List.map_cons, List.reverse_cons, List.append_assoc, List.singleton_append]
    rfl
  | @chunk position s piece closer length closerLength tokens inside isChunk rest ih =>
    let first : Token := ⟨piece, position, position + length, false⟩
    let second : Token := ⟨closer, position + length, position + length + closerLength, false⟩
    obtain ⟨place, after, inside', outside, gap, later⟩ := ih (second.moved d :: first.moved d :: read)
    refine ⟨place, after, inside', outside, gap, ?_⟩
    obtain ⟨_, _, _, _, pos, bound, _⟩ := chunk_closes isChunk
    rw [List.length_drop, List.length_drop] at bound
    have behind : (text.drop position ++ more).drop (length + closerLength) =
        text.drop (position + length + closerLength) ++ more := by
      rw [List.drop_append_of_le_length (by rw [List.length_drop]; omega), List.drop_drop, Nat.add_assoc]
    have moved : (⟨piece, position + d, position + d + length, false⟩ : Token) = first.moved d := by
      simp only [first, Token.moved, Token.mk.injEq, true_and, and_true]
      omega
    have moved' : (⟨closer, position + d + length, position + d + length + closerLength, false⟩ : Token) =
        second.moved d := by
      simp only [second, Token.moved, Token.mk.injEq, true_and, and_true]
      omega
    rw [scan_chunk inside (chunk?_append isChunk more), moved, moved', behind,
      show position + d + length + closerLength = position + length + closerLength + d by omega,
      Situation.after_moved, Situation.after_moved, later, List.map_cons, List.map_cons, List.reverse_cons,
        List.reverse_cons, List.append_assoc, List.append_assoc, List.singleton_append, List.singleton_append]
    rfl

/-- Behind a text at whose end the lexer rests, the walk goes on in the next line as at the beginning of a text. -/
theorem scan_text (reads : Reads text 0 .initial tokens) (rests : (Situation.initial.behind tokens).Rests) (d : Nat)
    (read : List Token) (rest : List Char) :
    scan 0 d .initial read (text ++ '\n' :: rest) =
      scan 0 (d + text.length + 1) .initial ((tokens.map (Token.moved d)).reverse ++ read) rest := by
  obtain ⟨place, after, inside, _, gap, walk⟩ := reads.scan_eq (isApart_newline rest) d read
  rw [Nat.zero_add, List.drop_zero] at walk
  have restart := trivia_append gap rest
  rw [List.length_drop, if_neg (Nat.lt_irrefl _)] at restart
  have front : (text.drop place ++ ['\n']).length = text.length - place + 1 := by simp
  rw [walk, List.append_cons, scan_restart rests, front]
  · congr 1
    omega
  · rw [front, ← List.append_cons]
    exact restart

/-- A text is read into its tokens where only white space and comments follow in further lines. -/
theorem scan_last {broken : Bool} (reads : Reads text 0 .initial tokens) (apart : IsApart more)
    (blank : trivia .between true (more.drop 1) = some ((more.drop 1).length, broken)) (d : Nat) (read : List Token) :
    scan 0 d .initial read (text ++ more) = some (read.reverse ++ tokens.map (Token.moved d)) := by
  obtain ⟨place, after, inside, outside, gap, walk⟩ := reads.scan_eq apart d read
  rw [Nat.zero_add, List.drop_zero] at walk
  obtain ⟨after', whole⟩ : ∃ after', trivia .between (Situation.initial.behind tokens).previous.isNone
    (text.drop place ++ more) =
      some ((text.drop place ++ more).length, after') := by
    rcases isApart_cases apart with rfl | ⟨rest, rfl⟩
    · exact ⟨after, by rw [List.append_nil, List.length_drop]; exact gap⟩
    · have further := trivia_append gap rest
      rw [List.drop_succ_cons, List.drop_zero] at blank
      rw [List.length_drop, if_neg (Nat.lt_irrefl _), blank] at further
      refine ⟨broken, ?_⟩
      rw [further, List.length_append, List.length_drop, List.length_cons, trivia.further, Option.map_some]
      congr 2
      omega
  rw [walk, scan_outside outside, whole, Option.bind_some, if_pos (List.drop_length), List.reverse_append,
    List.reverse_reverse]

end Walk

section Front

variable {broken : Bool}

theorem trivia_wholeLine (oneLine : ∀ c ∈ cs, Text.isLineBreak c = false) :
    trivia .line broken cs = some (cs.length, broken) := by
  induction cs with
  | nil => rfl
  | cons c cs ih =>
    rw [trivia_line, if_neg (by simp [oneLine c List.mem_cons_self]),
      ih fun d later => oneLine d (List.mem_cons_of_mem _ later)]
    rfl

/-- A line that is a comment is passed over. -/
theorem trivia_commentLine (oneLine : ∀ c ∈ cs, Text.isLineBreak c = false) (rest : List Char) :
    trivia .between broken ('/' :: '/' :: cs ++ '\n' :: rest) =
        trivia.further (cs.length + 3) (trivia .between true rest) := by
  have comment : trivia .between broken ('/' :: '/' :: cs) = some (cs.length + 2, broken) := by
    change trivia.further 2 (trivia .line broken cs) = _
    rw [trivia_wholeLine oneLine]
    rfl
  rw [trivia_append comment, if_neg (by simp)]

/-- A byte order mark is passed over. -/
theorem trivia_byteOrderMark {c : Char} (mark : c.toNat = 0xfeff) (rest : List Char) :
    trivia .between broken (c :: rest) = trivia.further 1 (trivia .between broken rest) := by
  have other {d : Char} (less : d.toNat ≠ 0xfeff) : c ≠ d := fun same => less (same ▸ mark)
  have slash := other (d := '/') (by decide)
  have angle := other (d := '<') (by decide)
  have dash := other (d := '-') (by decide)
  have clear : NoComment broken c rest := ⟨by simp [slash], by simp [slash], by simp [angle], by simp [dash]⟩
  have noBreak : Text.isLineBreak c = false := by
    have feed := other (d := '\n') (by decide)
    have return_ := other (d := '\r') (by decide)
    simp [Text.isLineBreak, feed, return_, mark]
  rw [trivia_noComment clear, if_pos (by simp [Text.isScriptBlank, mark]), noBreak, Bool.or_false]

end Front

end Lexer

end ModuleBundler.Script
