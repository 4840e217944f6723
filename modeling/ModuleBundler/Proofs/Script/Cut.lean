import ModuleBundler.Proofs.Script.Items
import ModuleBundler.Proofs.Script.Lexer
import ModuleBundler.Script.Plain

/-!
Which tokens are taken out of a text.

A statement is taken out with its semicolon and the white space behind it, a keyword with the white space behind it.
Either way the cut goes from the beginning of a token to the end of one or to the end of white space, and so takes
some tokens whole and leaves all others as they are.
-/

namespace ModuleBundler.Script.Lexer

/-- A cut that takes some tokens and leaves those behind them. -/
structure Takes (text : List Char) (taken back : List Token) (start stop : Nat) : Prop where
  starts : ∃ first ∈ taken.head?, first.start = start
  covered : ∀ t ∈ taken, t.stop ≤ stop
  clear : ∀ t ∈ back, stop ≤ t.start
  ends : (∃ t ∈ taken, t.stop = stop) ∨ ∃ c, text[stop - 1]? = some c ∧ Text.isBlank c = true
  within : stop ≤ text.length
  noChunk : ∀ next ∈ back.head?, next.lexeme.isChunk = false

section Cut

variable {text cs : List Char} {position start : Nat} {s : Situation}
  {tokens taken back : List Token} {w : Token} {c : Char}

theorem Reads.outside_of_head (reads : Reads text position s tokens)
    (noChunk : ∀ next ∈ tokens.head?, next.lexeme.isChunk = false) : s.inTemplate = false := by
  cases reads with
  | done outside => exact outside
  | token outside => exact outside
  | chunk _ isChunk =>
    have isPiece := (chunk_closes isChunk).1
    rw [noChunk _ rfl] at isPiece
    cases isPiece

theorem Reads.head_of_outside (reads : Reads text position s tokens) (outside : s.inTemplate = false) :
    ∀ next ∈ tokens.head?, next.lexeme.isChunk = false := by
  intro next here
  cases reads with
  | done => cases here
  | token _ _ isLexeme =>
    cases here
    exact (isText_lexeme isLexeme).noChunk
  | chunk inside =>
    rw [outside] at inside
    cases inside

/-- White space goes on to the next token at most. -/
theorem Reads.blank_le (reads : Reads text position s tokens) (outside : s.inTemplate = false) :
    position + Text.blankLength (text.drop position) ≤ text.length ∧
      ∀ t ∈ tokens, position + Text.blankLength (text.drop position) ≤ t.start := by
  cases reads with
  | done _ gap atEnd =>
    have bound := blankLength_le_trivia gap
    exact ⟨by omega, fun t none => by cases none⟩
  | token _ gap isLexeme rest =>
    have bound := blankLength_le_trivia gap
    have length := rest.le_length
    refine ⟨by omega, fun t member => ?_⟩
    rcases List.mem_cons.mp member with rfl | later
    · exact Nat.add_le_add_left bound _
    · have := rest.position_le later
      omega
  | chunk inside =>
    rw [outside] at inside
    cases inside

/-- Where no comment begins behind white space, a token does. -/
theorem Reads.head_at (reads : Reads text position s tokens) (outside : s.inTemplate = false)
    (here : text[position + Text.blankLength (text.drop position)]? = some c) (plain : IsPlain c) :
    ∃ u back, tokens = u :: back ∧ u.start = position + Text.blankLength (text.drop position) ∧
      lexeme? s.operandNext (text.drop u.start) = some (u.lexeme, u.stop - u.start) ∧
          Reads text u.stop (s.after u) back := by
  have first : ∀ d ∈ ((text.drop position).drop (Text.blankLength (text.drop position))).head?, IsPlain d := by
    intro d head
    rw [List.drop_drop, List.head?_drop, here] at head
    cases head
    exact plain
  cases reads with
  | done _ gap atEnd =>
    rw [trivia_eq_blankLength gap first] at atEnd
    rw [atEnd, List.getElem?_eq_none (Nat.le_refl _)] at here
    cases here
  | token _ gap isLexeme rest =>
    have blank := trivia_eq_blankLength gap first
    refine ⟨_, _, rfl, by rw [blank], ?_, rest⟩
    rw [Nat.add_sub_cancel_left]
    exact isLexeme
  | chunk inside =>
    rw [outside] at inside
    cases inside

theorem isBlank_before (any : 0 < Text.blankLength (text.drop position)) :
    ∃ c, text[position + Text.blankLength (text.drop position) - 1]? = some c ∧ Text.isBlank c = true := by
  obtain ⟨c, here, isBlank⟩ := isBlank_of_lt_blankLength (Nat.sub_one_lt_of_lt any)
  refine ⟨c, ?_, isBlank⟩
  rw [← here, List.getElem?_drop]
  congr 1
  omega

/-- A cut may go on from the end of its last token to the end of the white space behind it. -/
theorem Takes.of_blank (reads : Reads text w.stop s back) (outside : s.inTemplate = false)
    (starts : ∃ first ∈ taken.head?, first.start = start) (covered : ∀ t ∈ taken, t.stop ≤ w.stop)
    (member : w ∈ taken) :
    Takes text taken back start (w.stop + Text.blankLength (text.drop w.stop)) where
  starts := starts
  covered t taken := Nat.le_trans (covered t taken) (Nat.le_add_right _ _)
  clear := (reads.blank_le outside).2
  ends := by
    by_cases any : 0 < Text.blankLength (text.drop w.stop)
    · exact Or.inr (isBlank_before any)
    · exact Or.inl ⟨w, member, by omega⟩
  within := (reads.blank_le outside).1
  noChunk := reads.head_of_outside outside

theorem isPlain_semicolon : IsPlain ';' := ⟨by decide, by decide⟩

/-- A statement is taken out from its first token on, with one semicolon behind it if it does not end with one. -/
theorem takes_statement (reads : Reads text w.stop s back) (outside : s.inTemplate = false)
    (starts : ∃ first ∈ taken.head?, first.start = start) (covered : ∀ t ∈ taken, t.stop ≤ w.stop)
    (member : w ∈ taken) :
    ∃ more rest, back = more ++ rest ∧ (∀ t ∈ more, t.lexeme = .mark .semicolon) ∧
      more.length ≤ 1 ∧ (text[w.stop - 1]? = some ';' → more = []) ∧
      Takes text (taken ++ more) rest start (Module.statementStop text w.stop) := by
  have plainly : Takes text taken back start (w.stop + Text.blankLength (text.drop w.stop)) :=
    .of_blank reads outside starts covered member
  unfold Module.statementStop
  simp only
  split
  · refine ⟨[], back, rfl, (fun t none => absurd none List.not_mem_nil), Nat.zero_le _, fun _ => rfl, ?_⟩
    rwa [List.append_nil]
  · next opened =>
    split
    · next here =>
      obtain ⟨u, rest, rfl, start_, isLexeme, behind⟩ := reads.head_at outside here isPlain_semicolon
      rw [List.getElem?_eq_some_iff] at here
      obtain ⟨bound, here⟩ := here
      rw [start_, List.drop_eq_getElem_cons bound, here, lexeme_semicolon] at isLexeme
      obtain ⟨semicolon, length⟩ := Prod.mk.inj (Option.some.inj isLexeme)
      have outside' : (s.after u).inTemplate = false :=
        Situation.outside_after outside (by simp [← semicolon, Situation.LeadsIn])
      have stop : u.stop = w.stop + Text.blankLength (text.drop w.stop) + 1 := by omega
      refine ⟨[u], rest, rfl, fun t member => ?_, Nat.le_refl 1, fun closed => absurd closed opened, ?_⟩
      · rw [List.mem_singleton.mp member, semicolon]
      · rw [← stop]
        refine .of_blank behind outside' ?_ (fun t member => ?_) (by simp)
        · obtain ⟨first, head, same⟩ := starts
          exact ⟨first, by rw [List.head?_append, head]; rfl, same⟩
        · rcases List.mem_append.mp member with old | new
          · have := covered t old
            omega
          · rw [List.mem_singleton.mp new]
    · refine ⟨[], back, rfl, (fun t none => absurd none List.not_mem_nil), Nat.zero_le _, fun _ => rfl, ?_⟩
      rwa [List.append_nil]

/-- Behind a piece of a template nothing more is taken out. -/
theorem statementStop_of_closer (closes : c = '\x60' ∨ c = '$') {rest : List Char}
    (here : text.drop position = c :: rest) :
    Module.statementStop text position = position := by
  have solid : Text.isBlank c = false := by
    rcases closes with rfl | rfl <;> decide
  have noBlank : Text.blankLength (text.drop position) = 0 := by rw [here, blankLength_cons, solid]; rfl
  have noSemicolon : text[position]? ≠ some ';' := by
    rw [← List.head?_drop, here]
    rcases closes with rfl | rfl <;> simp
  simp [Module.statementStop, noBlank, noSemicolon]

/-- Where a keyword stands, the search for it goes on behind the white space after it. -/
theorem keywordsStop?_keyword {k : Keyword} (isText : IsText w.lexeme (text.drop w.start) (w.stop - w.start))
    (isKeyword : w.lexeme = .keyword k) (order : w.start ≤ w.stop) (keywords : List String) :
    Module.keywordsStop? text w.start (k.spelling :: keywords) =
      Module.keywordsStop? text (w.stop + Text.blankLength (text.drop w.stop)) keywords := by
  rw [isKeyword] at isText
  have leads : k.spelling.toList.isPrefixOf (text.drop w.start) = true := by
    rw [List.isPrefixOf_iff_prefix, ← isText.spelled k rfl]
    exact List.take_prefix _ _
  have stop : w.start + k.spelling.length = w.stop := by
    have length := isText.length_keyword
    omega
  rw [Module.keywordsStop?, if_pos leads, stop]

/-- `export` is taken out with the white space behind it. -/
theorem takes_export {stop : Nat} (reads : Reads text w.stop s back) (outside : s.inTemplate = false)
    (isText : IsText w.lexeme (text.drop w.start) (w.stop - w.start)) (isExport : w.lexeme = .keyword .export_)
    (order : w.start ≤ w.stop) (h : Module.keywordsStop? text w.start ["export"] = some stop) :
    Takes text [w] back w.start stop := by
  rw [show "export" = Keyword.export_.spelling from rfl, keywordsStop?_keyword isText isExport order] at h
  cases h
  exact .of_blank reads outside ⟨w, rfl, rfl⟩ (fun t member => by rw [List.mem_singleton.mp member]) (by simp)

theorem isPlain_d : IsPlain 'd' := ⟨by decide, by decide⟩

/-- Where `default` stands behind white space, it is the next token. -/
theorem Reads.default_at {u : Token} (reads : Reads text position s (u :: back)) (outside : s.inTemplate = false)
    (word : Grammar.IsDefaultWord u.lexeme)
    (leads : "default".toList <+: text.drop (position + Text.blankLength (text.drop position))) :
    u.lexeme = .keyword .default_ ∧ u.start = position + Text.blankLength (text.drop position) := by
  have here : text[position + Text.blankLength (text.drop position)]? = some 'd' := by
    obtain ⟨rest, eq⟩ := leads
    rw [← List.head?_drop, ← eq]
    rfl
  obtain ⟨v, rest, same, start, isLexeme, _⟩ := reads.head_at outside here isPlain_d
  cases same
  refine ⟨word.resolve_right fun isDeclare => ?_, start⟩
  rw [isDeclare] at isLexeme
  exact absurd (name_ne_default isLexeme (start ▸ leads) rfl) (by decide)

/-- The search for `export` and `default` finds them if only white space stands between them. -/
theorem keywordsStop?_default (stop : Nat) {u : Token} (reads : Reads text w.stop s (u :: back))
    (outside : s.inTemplate = false)
    (isText : IsText w.lexeme (text.drop w.start) (w.stop - w.start)) (isExport : w.lexeme = .keyword .export_)
    (order : w.start ≤ w.stop) (word : Grammar.IsDefaultWord u.lexeme) :
    Module.keywordsStop? text w.start ["export", "default"] = some stop ↔
      u.lexeme = .keyword .default_ ∧ u.start = w.stop + Text.blankLength (text.drop w.stop) ∧
        stop = u.stop + Text.blankLength (text.drop u.stop) := by
  rw [show "export" = Keyword.export_.spelling from rfl, keywordsStop?_keyword isText isExport order]
  have found (isDefault : u.lexeme = .keyword .default_)
    (start : u.start = w.stop + Text.blankLength (text.drop w.stop)) :
      Module.keywordsStop? text (w.stop + Text.blankLength (text.drop w.stop)) ["default"] =
        some (u.stop + Text.blankLength (text.drop u.stop)) := by
    have isText := (reads.isText List.mem_cons_self (by rw [isDefault]; rfl)).2
    rw [← start, show "default" = Keyword.default_.spelling from rfl,
      keywordsStop?_keyword isText isDefault (reads.within List.mem_cons_self).1, Module.keywordsStop?]
  constructor
  · intro h
    have leads : "default".toList <+: text.drop (w.stop + Text.blankLength (text.drop w.stop)) := by
      rw [Module.keywordsStop?] at h
      split at h
      · next leads => exact List.isPrefixOf_iff_prefix.mp leads
      · cases h
    obtain ⟨isDefault, start⟩ := reads.default_at outside word leads
    rw [found isDefault start] at h
    exact ⟨isDefault, start, (Option.some.inj h).symm⟩
  · rintro ⟨isDefault, start, rfl⟩
    exact found isDefault start

/-- `export` and `default` are taken out with what stands between them and the white space behind them. -/
theorem takes_default {stop : Nat} {u : Token} (reads : Reads text w.stop s (u :: back))
    (outside : s.inTemplate = false)
    (isText : IsText w.lexeme (text.drop w.start) (w.stop - w.start)) (isExport : w.lexeme = .keyword .export_)
    (order : w.start ≤ w.stop) (word : Grammar.IsDefaultWord u.lexeme)
    (h : Module.keywordsStop? text w.start ["export", "default"] = some stop) :
    u.lexeme = .keyword .default_ ∧ Takes text [w, u] back w.start stop := by
  obtain ⟨isDefault, _, rfl⟩ := (keywordsStop?_default stop reads outside isText isExport order word).mp h
  have outside' : (s.after u).inTemplate = false :=
    Situation.outside_after outside (by simp [isDefault, Situation.LeadsIn])
  refine ⟨isDefault, .of_blank (reads.token_cases outside) outside' ⟨w, rfl, rfl⟩ (fun t member => ?_) (by simp)⟩
  have behind := reads.position_le List.mem_cons_self
  have order' := (reads.within List.mem_cons_self).1
  rcases List.mem_cons.mp member with rfl | member
  · omega
  · rw [List.mem_singleton.mp member]

end Cut

end ModuleBundler.Script.Lexer
