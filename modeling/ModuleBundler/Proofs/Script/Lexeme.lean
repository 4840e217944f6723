import ModuleBundler.Proofs.Script.Literal
import ModuleBundler.Proofs.Script.Trivia

namespace ModuleBundler.Script.Lexer

section Quoted

variable {cs : List Char} {n : Nat}

/-- A string ends with its quote. -/
theorem readStringTail_closes {quote : Char} {skip : Nat} {value : List Char}
    (h : readStringTail quote skip cs = some (value, n)) : ∃ k, n = k + 1 ∧ cs[k]? = some quote := by
  fun_induction readStringTail quote skip cs generalizing value n with
  | case1 | case5 | case6 => cases h
  | case2 skip c rest ih | case4 _ _ _ _ _ ih | case7 c rest _ _ _ ih =>
    obtain ⟨⟨inner, m⟩, found, same⟩ := Option.map_eq_some_iff.mp h
    cases same
    obtain ⟨k, rfl, closes⟩ := ih found
    exact ⟨k + 1, rfl, closes⟩
  | case3 =>
    cases h
    exact ⟨0, rfl, rfl⟩

theorem readString_closes {value : List Char} (h : readString cs = some (value, n)) :
    ∃ k quote, n = k + 1 ∧ cs[k]? = some quote ∧ (quote = '"' ∨ quote = '\'') := by
  unfold readString at h
  split at h
  · obtain ⟨⟨inner, m⟩, found, same⟩ := Option.map_eq_some_iff.mp h
    cases same
    obtain ⟨k, rfl, closes⟩ := readStringTail_closes found
    exact ⟨k + 1, _, rfl, closes, Or.inl rfl⟩
  · obtain ⟨⟨inner, m⟩, found, same⟩ := Option.map_eq_some_iff.mp h
    cases same
    obtain ⟨k, rfl, closes⟩ := readStringTail_closes found
    exact ⟨k + 1, _, rfl, closes, Or.inr rfl⟩
  · cases h

theorem onLine_regexBody {escaped inClass : Bool} (h : regexBodyLength? escaped inClass cs = some n) :
    OnLine cs n := by
  have other {c : Char} (noBreak : ¬Text.isLineBreak c = true) : c ≠ '\n' := by
    rintro rfl
    exact noBreak (by decide)
  fun_induction regexBodyLength? escaped inClass cs generalizing n with
  | case1 | case2 => cases h
  | case3 _ c rest noBreak ih | case5 _ _ c rest noBreak _ _ ih =>
    obtain ⟨m, found, rfl⟩ := Option.map_eq_some_iff.mp h
    exact (ih found).cons (other noBreak)
  | case4 _ _ c rest noBreak =>
    cases h
    exact (onLine_zero rest).cons (other noBreak)

theorem onLine_regex {rest : List Char} (h : regexLength? ('/' :: rest) = some n) :
    OnLine ('/' :: rest) n ∧ 0 < n := by
  unfold regexLength? at h
  split at h
  · cases h
  · next body found =>
    have inside : OnLine ('/' :: rest) (body + 1) := (onLine_regexBody found).cons (by decide)
    split at h
    · next c more next =>
      split at h
      · next starts =>
        have other : c ≠ '\n' := by
          rintro rfl
          rw [isNameStart_newline] at starts
          cases starts
        cases h
        have flags := (onLine_takeWhile Text.isNamePart isNamePart_newline more).cons other
        have whole := inside.add (next ▸ flags)
        refine ⟨?_, by omega⟩
        convert whole using 1
        omega
      · cases h
        exact ⟨inside, Nat.succ_pos _⟩
    · cases h
      exact ⟨inside, Nat.succ_pos _⟩

/-- The body of a regular expression ends with a slash. -/
theorem regexBody_closes {escaped inClass : Bool} (h : regexBodyLength? escaped inClass cs = some n) :
    ∃ k, n = k + 1 ∧ cs[k]? = some '/' := by
  fun_induction regexBodyLength? escaped inClass cs generalizing n with
  | case1 | case2 => cases h
  | case3 _ _ _ _ ih | case5 _ _ _ _ _ _ _ ih =>
    obtain ⟨m, found, rfl⟩ := Option.map_eq_some_iff.mp h
    obtain ⟨k, rfl, closes⟩ := ih found
    exact ⟨k + 1, rfl, closes⟩
  | case4 _ _ c rest _ _ isSlash =>
    cases h
    obtain ⟨rfl, _⟩ : c = '/' ∧ _ := by simpa using isSlash
    exact ⟨0, rfl, rfl⟩

theorem isBlank_eq_false_of_name {c : Char} (letter : Text.isNameStart c = true ∨ Text.isNamePart c = true) :
    Text.isBlank c = false := by
  by_contra blank
  have blank : Text.isScriptBlank c = true := by
    rw [Text.isScriptBlank, Bool.of_not_eq_false blank, Bool.true_or]
  rcases letter with starts | goesOn
  · rw [not_isNameStart_of_blank blank] at starts
    cases starts
  · rw [not_isNamePart_of_blank blank] at goesOn
    cases goesOn

/-- A regular expression ends with its slash or with a flag. -/
theorem regex_ends {rest : List Char} (h : regexLength? ('/' :: rest) = some n) :
    ∃ c, ('/' :: rest)[n - 1]? = some c ∧ Text.isBlank c = false := by
  unfold regexLength? at h
  split at h
  · cases h
  · next body found =>
    obtain ⟨k, rfl, closes⟩ := regexBody_closes found
    have slash : ∃ c, ('/' :: rest)[k + 1 + 1 - 1]? = some c ∧ Text.isBlank c = false := ⟨'/', closes, by decide⟩
    split at h
    · next c more next =>
      split at h
      · next starts =>
        cases h
        have flag (j : Nat) : ('/' :: rest)[k + 1 + 1 + j]? = (c :: more)[j]? := by rw [← next, List.getElem?_drop]
        have number : k + 1 + 2 + (more.takeWhile Text.isNamePart).length - 1 =
            k + 1 + 1 + (more.takeWhile Text.isNamePart).length := by omega
        rw [number, flag]
        cases flags : (more.takeWhile Text.isNamePart).length with
        | zero => exact ⟨c, rfl, isBlank_eq_false_of_name (Or.inl starts)⟩
        | succ j =>
          have inside : j < (more.takeWhile Text.isNamePart).length := by omega
          obtain ⟨behind, eq⟩ := List.takeWhile_prefix (l := more) Text.isNamePart
          refine ⟨(more.takeWhile Text.isNamePart)[j], ?_, isBlank_eq_false_of_name (Or.inr ?_)⟩
          · rw [List.getElem?_cons_succ, ← List.getElem?_eq_getElem inside]
            conv => lhs; rw [← eq]
            exact List.getElem?_append_left inside
          · exact List.mem_takeWhile_imp (List.getElem_mem inside)
      · cases h
        exact slash
    · cases h
      exact slash

/-- A piece of a template ends where a mark closes it or opens a substitution. -/
theorem chunkLength_closes {escaped : Bool} (h : chunkLength? escaped cs = some n) :
    ∃ rest, cs.drop n = '\x60' :: rest ∨ cs.drop n = '$' :: '\x7b' :: rest := by
  fun_induction chunkLength? escaped cs generalizing n with
  | case1 => cases h
  | case2 c rest ih | case5 c rest _ _ ih =>
    obtain ⟨m, found, rfl⟩ := Option.map_eq_some_iff.mp h
    exact ih found
  | case3 rest =>
    cases h
    exact ⟨rest, Or.inl rfl⟩
  | case4 rest =>
    cases h
    exact ⟨rest, Or.inr rfl⟩

end Quoted

section Marks

variable {cs : List Char} {m : Mark} {n : Nat}

theorem clean_spellings : ∀ entry ∈ Mark.spellings, '\n' ∉ entry.1.toList ∧ 0 < entry.1.toList.length := by
  decide

theorem onLine_mark (h : Mark.scan? cs = some (m, n)) : OnLine cs n ∧ 0 < n := by
  obtain ⟨entry, found, same⟩ := Option.map_eq_some_iff.mp h
  cases same
  obtain ⟨clean, nonempty⟩ := clean_spellings entry (List.mem_of_find?_eq_some found)
  have leads := List.find?_some (p := fun entry : String × Mark => entry.1.toList.isPrefixOf cs) found
  rw [← String.length_toList]
  exact ⟨onLine_isPrefixOf leads clean, nonempty⟩

theorem onLine_slash (rest : List Char) :
    OnLine ('/' :: rest) (Mark.scanSlash ('/' :: rest)).2 ∧ 0 < (Mark.scanSlash ('/' :: rest)).2 := by
  unfold Mark.scanSlash
  split
  · next rest' eq =>
    cases eq
    exact ⟨((onLine_zero _).cons (by decide)).cons (by decide), Nat.succ_pos _⟩
  · exact ⟨(onLine_zero _).cons (by decide), Nat.succ_pos _⟩

end Marks

/-- What is known of the text of a token that is not a piece of a template. -/
structure IsText (lexeme : Lexeme) (cs : List Char) (n : Nat) : Prop where
  pos : 0 < n
  le_length : n ≤ cs.length
  noChunk : lexeme.isChunk = false
  /-- Only strings go on in another line. -/
  onLine : '\n' ∈ cs.take n → lexeme.isQuoted = true
  ends : cs[n - 1]? ≠ some '\n'
  /-- A keyword is spelled as it is. -/
  spelled : ∀ k, lexeme = .keyword k → cs.take n = k.spelling.toList

section Tokens

variable {cs : List Char} {lexeme : Lexeme} {n : Nat}

theorem ends_of_onLine (read : OnLine cs n ∧ 0 < n) : cs[n - 1]? ≠ some '\n' := by
  intro newline
  refine read.1.2 (List.mem_of_getElem? (i := n - 1) ?_)
  rw [List.getElem?_take_of_lt (Nat.sub_one_lt_of_lt read.2), newline]

theorem IsText.of_onLine (read : OnLine cs n ∧ 0 < n) (noChunk : lexeme.isChunk = false)
    (noKeyword : ∀ k, lexeme ≠ .keyword k) : IsText lexeme cs n where
  pos := read.2
  le_length := read.1.1
  noChunk := noChunk
  onLine newline := absurd newline read.1.2
  ends := ends_of_onLine read
  spelled k same := absurd same (noKeyword k)

theorem isText_string {value : List Char} (h : readString cs = some (value, n)) :
    IsText (.text (String.ofList value)) cs n := by
  obtain ⟨k, quote, rfl, closes, isQuote⟩ := readString_closes h
  have other : quote ≠ '\n' := by rcases isQuote with rfl | rfl <;> decide
  have bound := (List.getElem?_eq_some_iff.mp closes).choose
  refine ⟨Nat.succ_pos _, bound, rfl, fun _ => rfl, ?_, fun _ same => by cases same⟩
  rw [Nat.add_sub_cancel, closes]
  simpa using other

theorem isText_word {reading : NameReading} (read : readName true 0 cs = some reading)
    (starts : ∃ c ∈ cs.head?, c = '\\' ∨ Text.isNameStart c = true) (word : word? reading = some lexeme) :
    IsText lexeme cs reading.length := by
  have onLine := onLine_readName read (by simp)
  have pos := (readName_pos read rfl rfl starts).1
  unfold word? at word
  simp only at word
  split at word
  · next k isKeyword =>
    split at word
    · cases word
    · next plain =>
      cases word
      have spelling : k.spelling = String.ofList reading.letters := by
        simpa [Keyword.ofSpelling?] using List.find?_some isKeyword
      refine ⟨pos, onLine.1, rfl, fun newline => absurd newline onLine.2, ends_of_onLine ⟨onLine, pos⟩,
        fun l same => ?_⟩
      cases same
      rw [spelling, String.toList_ofList, letters_eq_take read rfl (by simpa using plain)]
  · split at word
    · cases word
    · cases word
      exact .of_onLine ⟨onLine, pos⟩ rfl (by simp)

/-- The ways to read a token that is no piece of a template. -/
inductive ReadsAs (cs : List Char) : Lexeme → Nat → Prop
  | word {reading : NameReading} {lexeme : Lexeme} : readName true 0 cs = some reading →
      (∃ c ∈ cs.head?, c = '\\' ∨ Text.isNameStart c = true) → word? reading = some lexeme →
        ReadsAs cs lexeme reading.length
  | text {value : List Char} {n : Nat} : readString cs = some (value, n) → ReadsAs cs (.text (String.ofList value)) n
  | number {n : Nat} : numberLength? cs = some n → ReadsAs cs (.number (String.ofList (cs.take n))) n
  | regex {n : Nat} {rest : List Char} : cs = '/' :: rest → regexLength? cs = some n →
      ReadsAs cs (.regex (String.ofList (cs.take n))) n
  | slash {m : Mark} {n : Nat} {rest : List Char} :
      cs = '/' :: rest → Mark.scanSlash cs = (m, n) → ReadsAs cs (.mark m) n
  | mark {m : Mark} {n : Nat} : Mark.scan? cs = some (m, n) → ReadsAs cs (.mark m) n

theorem readsAs_lexeme {operandNext : Bool} (h : lexeme? operandNext cs = some (lexeme, n)) :
    ReadsAs cs lexeme n := by
  cases cs with
  | nil => cases h
  | cons c rest =>
    rw [lexeme?] at h
    split at h
    · next starts =>
      split at h
      · next reading read =>
        obtain ⟨_, word, same⟩ := Option.map_eq_some_iff.mp h
        cases same
        exact .word read ⟨c, rfl, by simpa using starts⟩ word
      · cases h
    · split at h
      · obtain ⟨⟨value, _⟩, read, same⟩ := Option.map_eq_some_iff.mp h
        cases same
        exact .text read
      · split at h
        · obtain ⟨_, read, same⟩ := Option.map_eq_some_iff.mp h
          cases same
          exact .number read
        · split at h
          · next isSlash =>
            obtain ⟨rfl, _⟩ : c = '/' ∧ operandNext = true := by simpa using isSlash
            obtain ⟨_, read, same⟩ := Option.map_eq_some_iff.mp h
            cases same
            exact .regex rfl read
          · split at h
            · next isSlash =>
              subst isSlash
              obtain ⟨isMark, length⟩ := Prod.mk.inj (Option.some.inj h)
              exact isMark ▸ .slash rfl (Prod.ext rfl length)
            · obtain ⟨_, read, same⟩ := Option.map_eq_some_iff.mp h
              cases same
              exact .mark read

theorem isText_lexeme {operandNext : Bool} (h : lexeme? operandNext cs = some (lexeme, n)) : IsText lexeme cs n := by
  cases readsAs_lexeme h with
  | word read starts word => exact isText_word read starts word
  | text read => exact isText_string read
  | number read => exact .of_onLine (onLine_number read) rfl (by simp)
  | @regex _ rest eq read => exact .of_onLine (eq ▸ onLine_regex (eq ▸ read)) rfl (by simp)
  | @slash _ _ rest eq read =>
    have onLine := onLine_slash rest
    rw [← eq, read] at onLine
    exact .of_onLine onLine rfl (by simp)
  | mark read => exact .of_onLine (onLine_mark read) rfl (by simp)

/-- A word is a keyword or a name. -/
theorem isWord_word {reading : NameReading} (word : word? reading = some lexeme) : lexeme.isWord = true := by
  unfold word? at word
  simp only at word
  split at word <;> split at word <;> cases word <;> rfl

/-- The last character of a string or a regular expression is no white space. -/
theorem quoted_ends {operandNext : Bool} (h : lexeme? operandNext cs = some (lexeme, n))
    (quoted : lexeme.isQuoted = true) :
    ∃ c, cs[n - 1]? = some c ∧ Text.isBlank c = false := by
  cases readsAs_lexeme h with
  | word _ _ word =>
    have isWord := isWord_word word
    cases lexeme with
    | keyword | name | mark | number => cases quoted
    | text | regex | chunk => exact absurd isWord Bool.false_ne_true
  | text read =>
    obtain ⟨k, quote, rfl, closes, isQuote⟩ := readString_closes read
    exact ⟨quote, closes, by rcases isQuote with rfl | rfl <;> decide⟩
  | regex eq read =>
    subst eq
    exact regex_ends read
  | number | slash | mark => cases quoted

theorem IsText.length_keyword {k : Keyword} (isText : IsText (.keyword k) cs n) : n = k.spelling.length := by
  have length := congrArg List.length (isText.spelled k rfl)
  rw [List.length_take, String.length_toList] at length
  have bound := isText.le_length
  omega

/-- A name of seven letters does not stand where `default` stands. -/
theorem name_ne_default {operandNext : Bool} {name : String} (h : lexeme? operandNext cs = some (.name name, n))
    (leads : "default".toList <+: cs) (length : name.length = 7) : name = "default" := by
  generalize eq : Lexeme.name name = lexeme at h
  cases readsAs_lexeme h with
  | word read _ word =>
    subst eq
    unfold word? at word
    simp only at word
    split at word
    · split at word <;> cases word
    · split at word
      · cases word
      · cases word
        rw [← String.length_toList, String.toList_ofList] at length
        have same := letters_of_prefix read leads (by decide) (by rw [length]; decide)
        rw [← same.eq_of_length (by rw [length]; decide)]
        rfl
  | text | number | regex | slash | mark => cases eq

/-- What closes a piece of a template is a token behind it. -/
theorem chunk_closes {piece closer : Lexeme} {k : Nat} (h : chunk? cs = some (piece, n, closer, k)) :
    piece.isChunk = true ∧ (closer = .mark .backtick ∨ closer = .mark .dollarBrace) ∧
      (∃ c rest, (c = '\x60' ∨ c = '$') ∧ cs.drop n = c :: rest) ∧
      IsSolid (cs.drop n) ∧ IsText closer (cs.drop n) k := by
  unfold chunk? at h
  split at h
  · cases h
  · next length found =>
    obtain ⟨rest, tick | brace⟩ := chunkLength_closes found
    · simp only [tick] at h
      cases h
      rw [tick]
      have onLine := (onLine_zero rest).cons (c := '\x60') (by decide)
      refine ⟨rfl, Or.inl rfl, ⟨_, _, Or.inl rfl, rfl⟩, ⟨by decide, ?_⟩,
        .of_onLine ⟨onLine, Nat.succ_pos _⟩ rfl (by simp)⟩
      exact fun _ _ _ slash => absurd slash (by decide)
    · simp only [brace] at h
      cases h
      rw [brace]
      have onLine := ((onLine_zero rest).cons (c := '\x7b') (by decide)).cons (c := '$') (by decide)
      refine ⟨rfl, Or.inr rfl, ⟨_, _, Or.inr rfl, rfl⟩, ⟨by decide, ?_⟩,
        .of_onLine ⟨onLine, Nat.succ_pos _⟩ rfl (by simp)⟩
      exact fun _ _ _ slash => absurd slash (by decide)

/-- A semicolon is a token of its own. -/
theorem lexeme_semicolon (operandNext : Bool) (rest : List Char) :
    lexeme? operandNext (';' :: rest) = some (.mark .semicolon, 1) := by
  rfl

/-- A text that is read as a name wherever a name is spelled without escapes. -/
structure IsName (name : String) : Prop where
  nonempty : name.toList ≠ []
  letters : AreLetters true name.toList
  noKeyword : Keyword.ofSpelling? name = none

theorem isName_of_lexeme {operandNext : Bool} {name : String} (h : lexeme? operandNext cs = some (.name name, n)) :
    IsName name := by
  generalize eq : Lexeme.name name = lexeme at h
  cases readsAs_lexeme h with
  | word read starts word =>
    subst eq
    unfold word? at word
    simp only at word
    split at word
    · split at word <;> cases word
    · next noKeyword =>
      split at word
      · cases word
      · cases word
        have nonempty := (readName_pos read rfl rfl starts).2
        have letters := areLetters_readName read
        exact ⟨by rwa [String.toList_ofList], by rwa [String.toList_ofList], noKeyword⟩
  | text | number | regex | slash | mark => cases eq

/-- Whether a text does not go on with a letter of a name. -/
def EndsWord (rest : List Char) : Prop :=
  ∀ d ∈ rest.head?, d ≠ '\\' ∧ Text.isNamePart d = false ∧ Text.isNameStart d = false

theorem lexeme?_word {letters rest : List Char} (operandNext : Bool) (nonempty : letters ≠ [])
    (areLetters : AreLetters true letters) (ends : EndsWord rest) :
    lexeme? operandNext (letters ++ rest) =
      (word? ⟨letters, letters.length, false⟩).map fun lexeme => (lexeme, letters.length) := by
  obtain ⟨c, more, rfl⟩ := List.exists_cons_of_ne_nil nonempty
  have read := readName_letters areLetters ends
  have starts : Text.isNameStart c = true := areLetters.1
  rw [List.cons_append] at read ⊢
  rw [lexeme?, if_pos (by simp [starts]), read]

theorem lexeme?_name {name : String} {rest : List Char} (operandNext : Bool) (isName : IsName name)
    (ends : EndsWord rest) :
    lexeme? operandNext (name.toList ++ rest) = some (.name name, name.length) := by
  rw [lexeme?_word operandNext isName.nonempty isName.letters ends, word?]
  simp only [String.ofList_toList, isName.noKeyword, Bool.false_and, Bool.false_eq_true, if_false]
  rw [Option.map_some, String.length_toList]

theorem lexeme?_keyword (k : Keyword) {rest : List Char} (operandNext : Bool) (ends : EndsWord rest) :
    lexeme? operandNext (k.spelling.toList ++ rest) = some (.keyword k, k.spelling.length) := by
  have spelled : Keyword.ofSpelling? k.spelling = some k := by cases k <;> rfl
  have nonempty : k.spelling.toList ≠ [] := by cases k <;> decide
  have letters : AreLetters true k.spelling.toList := by
    have all : (k.spelling.toList.all Text.isNamePart && k.spelling.toList.head?.all Text.isNameStart) = true := by
      cases k <;> decide
    obtain ⟨c, more, same⟩ := List.exists_cons_of_ne_nil nonempty
    rw [same] at all ⊢
    simp only [List.all_cons, Bool.and_eq_true, List.head?_cons, Option.all_some, List.all_eq_true] at all
    exact ⟨all.2, all.1.2⟩
  rw [lexeme?_word operandNext nonempty letters ends, word?]
  simp only [String.ofList_toList, spelled, Bool.false_eq_true, if_false]
  rw [Option.map_some, String.length_toList]

/-- Nothing but a semicolon is read as one. -/
theorem eq_semicolon {operandNext : Bool} (h : lexeme? operandNext cs = some (.mark .semicolon, n)) :
    n = 1 ∧ cs[0]? = some ';' := by
  have only : ∀ entry ∈ Mark.spellings, entry.2 = .semicolon → entry.1 = ";" := by decide
  cases readsAs_lexeme h with
  | word _ _ word => cases isWord_word word
  | slash _ read =>
    unfold Mark.scanSlash at read
    split at read <;> cases read
  | mark read =>
    obtain ⟨entry, found, same⟩ := Option.map_eq_some_iff.mp read
    obtain ⟨isSemicolon, rfl⟩ := Prod.mk.inj same
    have spelled := only entry (List.mem_of_find?_eq_some found) isSemicolon
    have leads := List.find?_some (p := fun entry : String × Mark => entry.1.toList.isPrefixOf cs) found
    rw [spelled] at leads ⊢
    obtain ⟨more, rfl⟩ := List.isPrefixOf_iff_prefix.mp leads
    exact ⟨rfl, rfl⟩

/-- A string ends with a quote. -/
theorem closes_text {operandNext : Bool} {value : String} (h : lexeme? operandNext cs = some (.text value, n)) :
    ∃ quote, cs[n - 1]? = some quote ∧ (quote = '"' ∨ quote = '\'') := by
  generalize eq : Lexeme.text value = lexeme at h
  cases readsAs_lexeme h with
  | word _ _ word =>
    subst eq
    cases isWord_word word
  | text read =>
    obtain ⟨k, quote, rfl, closes, isQuote⟩ := readString_closes read
    exact ⟨quote, by rwa [Nat.add_sub_cancel], isQuote⟩
  | number | regex | slash | mark => cases eq

end Tokens

end ModuleBundler.Script.Lexer
