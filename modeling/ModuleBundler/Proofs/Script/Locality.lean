import ModuleBundler.Proofs.Script.Lexer

/-!
Tokens in front of a further line.

A token that does not go to the end of a text ends where it ends whatever follows. At the end of a text stands,
for each reader of a token, what it would find at a line feed as well: nothing to go on with. So another line
behind a text changes no token of it.
-/

namespace ModuleBundler.Script.Lexer

variable {cs rest more : List Char} {n : Nat}

theorem takeWhile_append_newline (p : Char → Bool) (stops : p '\n' = false) (cs rest : List Char) :
    (cs ++ '\n' :: rest).takeWhile p = cs.takeWhile p := by
  induction cs with
  | nil => simp [stops]
  | cons c cs ih =>
    rw [List.cons_append, List.takeWhile_cons, List.takeWhile_cons, ih]

theorem isPrefixOf_append_newline {spelling : List Char} (clean : '\n' ∉ spelling) (cs rest : List Char) :
    spelling.isPrefixOf (cs ++ '\n' :: rest) = spelling.isPrefixOf cs := by
  induction spelling generalizing cs with
  | nil => simp
  | cons a spelling ih =>
    rw [List.mem_cons, not_or] at clean
    cases cs with
    | nil =>
      have other : a ≠ '\n' := Ne.symm clean.1
      simp [List.isPrefixOf, other]
    | cons c cs => rw [List.cons_append, List.isPrefixOf_cons_cons, List.isPrefixOf_cons_cons, ih clean.2]

/-- What a text begins with stands before the end of its first line. -/
theorem leads_of_append (front : List Char) (clean : '\n' ∉ front) (eq : cs ++ '\n' :: rest = front ++ more) :
    ∃ others, cs = front ++ others := by
  have leads : front.isPrefixOf cs = true := by
    rw [← isPrefixOf_append_newline clean cs rest, eq]
    exact List.isPrefixOf_iff_prefix.mpr (List.prefix_append front more)
  obtain ⟨others, same⟩ := List.isPrefixOf_iff_prefix.mp leads
  exact ⟨others, same.symm⟩

section Escape

theorem fixedHex?_append {count value found : Nat} (h : fixedHex? count value cs = some found) (rest : List Char) :
    fixedHex? count value (cs ++ rest) = some found := by
  induction cs generalizing count value with
  | nil =>
    cases count with
    | zero => rwa [fixedHex?] at h ⊢
    | succ count => cases h
  | cons c cs ih =>
    cases count with
    | zero => rwa [fixedHex?] at h ⊢
    | succ count =>
      rw [fixedHex?] at h
      rw [List.cons_append, fixedHex?]
      split at h
      · exact ih h
      · cases h

theorem bracedHex?_append {any : Bool} {value : Nat} {found : Nat × Nat} (h : bracedHex? any value cs = some found)
    (rest : List Char) : bracedHex? any value (cs ++ rest) = some found := by
  induction cs generalizing any value found with
  | nil => cases h
  | cons c cs ih =>
    rw [bracedHex?] at h
    rw [List.cons_append, bracedHex?]
    split at h
    · next closes =>
      rw [if_pos closes]
      exact h
    · next goesOn =>
      rw [if_neg goesOn]
      split at h
      · next digit isDigit =>
        split at h
        · next small =>
          obtain ⟨inner, found, same⟩ := Option.map_eq_some_iff.mp h
          rw [if_pos small, ih found, Option.map_some, same]
        · cases h
      · cases h

theorem unicodeEscape?_append {found : Char × Nat} (h : unicodeEscape? cs = some found) (rest : List Char) :
    unicodeEscape? (cs ++ rest) = some found := by
  fun_cases unicodeEscape? cs with
  | case1 more =>
    obtain ⟨inner, braced, rfl⟩ := Option.map_eq_some_iff.mp h
    rw [List.cons_append, unicodeEscape?, bracedHex?_append braced, Option.map_some]
  | case2 _ noBrace =>
    rw [unicodeEscape?] at h
    · obtain ⟨inner, fixed, rfl⟩ := Option.map_eq_some_iff.mp h
      rw [unicodeEscape?, fixedHex?_append fixed, Option.map_some]
      intro more eq
      cases cs with
      | nil => cases fixed
      | cons c cs =>
        obtain ⟨rfl, _⟩ := List.cons.inj eq
        exact noBrace cs rfl
    · exact noBrace

/-- An octal escape that does not go to the end of a text ends there whatever follows. -/
theorem octalEscape_append (less : (octalEscape cs).2 < cs.length) (rest : List Char) :
    octalEscape (cs ++ rest) = octalEscape cs := by
  rcases cs with _ | ⟨a, _ | ⟨b, _ | ⟨c, others⟩⟩⟩
  · cases less
  · unfold octalEscape at less
    simp only at less
    split at less <;> simp at less
  · cases rest with
    | nil => rfl
    | cons d rest =>
      unfold octalEscape at less ⊢
      simp only [List.cons_append, List.nil_append] at less ⊢
      cases first : digitValue? 8 a with
      | none => rfl
      | some x =>
        cases second : digitValue? 8 b with
        | none => rfl
        | some y => simp [first, second] at less
  · rfl

theorem octalEscape_pos (c : Char) (cs : List Char) : 0 < (octalEscape (c :: cs)).2 := by
  generalize eq : c :: cs = text
  fun_cases octalEscape text <;> simp_all

/-- An escape that does not go to the end of a text ends there whatever follows. -/
theorem stringEscape?_append {value : Option Char} (h : stringEscape? cs = some (value, n)) (less : n < cs.length)
    (rest : List Char) : stringEscape? (cs ++ rest) = some (value, n) := by
  have plain {c : Char} {tail : List Char} (noBreak : ∀ more, c = '\r' → tail = '\n' :: more → False)
    (some_ : tail ≠ []) :
      ∀ more, c = '\r' → tail ++ rest = '\n' :: more → False := by
    intro more isReturn eq
    obtain ⟨d, others, rfl⟩ := List.exists_cons_of_ne_nil some_
    obtain ⟨rfl, _⟩ := List.cons.inj eq
    exact noBreak others isReturn rfl
  fun_cases stringEscape? cs with
  | case1 => cases h
  | case2 | case3 | case4 | case5 | case6 | case7 | case8 => exact h
  | case9 tail =>
    rw [stringEscape?] at h
    obtain ⟨_, found, same⟩ := Option.map_eq_some_iff.mp h
    rw [List.cons_append, stringEscape?, fixedHex?_append found, Option.map_some, same]
  | case10 tail =>
    rw [stringEscape?] at h
    obtain ⟨_, found, same⟩ := Option.map_eq_some_iff.mp h
    rw [List.cons_append, stringEscape?, unicodeEscape?_append found, Option.map_some, same]
  | case11 c tail _ _ _ _ _ _ noBreak _ _ isBreak =>
    rw [stringEscape?, if_pos isBreak] at h <;> try assumption
    cases h
    have some_ : tail ≠ [] := by rintro rfl; simp at less
    rw [List.cons_append, stringEscape?, if_pos isBreak] <;> try assumption
    exact plain noBreak some_
  | case12 c tail _ _ _ _ _ _ noBreak _ _ other isDigit _ _ octal =>
    rw [stringEscape?, if_neg other, if_pos isDigit, octal] at h <;> try assumption
    cases h
    have pos := octalEscape_pos c tail
    have whole : (octalEscape (c :: tail)).2 < (c :: tail).length := by rwa [octal]
    have some_ : tail ≠ [] := by
      rintro rfl
      rw [List.length_singleton] at whole
      omega
    have same := octalEscape_append whole rest
    rw [List.cons_append] at same
    rw [List.cons_append, stringEscape?, if_neg other, if_pos isDigit, same, octal] <;> try assumption
    exact plain noBreak some_
  | case13 c tail _ _ _ _ _ _ noBreak _ _ other noDigit =>
    rw [stringEscape?, if_neg other, if_neg noDigit] at h <;> try assumption
    cases h
    have some_ : tail ≠ [] := by rintro rfl; simp at less
    rw [List.cons_append, stringEscape?, if_neg other, if_neg noDigit] <;> try assumption
    exact plain noBreak some_

end Escape

section Strings

theorem readStringTail_length {quote : Char} {skip : Nat} {value : List Char}
    (h : readStringTail quote skip cs = some (value, n)) : skip < n := by
  fun_induction readStringTail quote skip cs generalizing value n with
  | case1 | case5 | case6 => cases h
  | case2 skip c rest ih | case4 _ _ _ _ _ ih | case7 c rest _ _ _ ih =>
    obtain ⟨⟨inner, m⟩, found, same⟩ := Option.map_eq_some_iff.mp h
    cases same
    have := ih found
    omega
  | case3 =>
    cases h
    exact Nat.one_pos

theorem readStringTail_append {quote : Char} {skip : Nat} {found : List Char × Nat}
    (h : readStringTail quote skip cs = some found) (rest : List Char) :
        readStringTail quote skip (cs ++ rest) = some found := by
  fun_induction readStringTail quote skip cs generalizing found with
  | case1 | case5 | case6 => cases h
  | case2 skip c tail ih =>
    obtain ⟨inner, tailFound, rfl⟩ := Option.map_eq_some_iff.mp h
    rw [List.cons_append, readStringTail, ih tailFound, Option.map_some]
  | case3 tail =>
    cases h
    rw [List.cons_append, readStringTail, if_pos rfl]
  | case4 tail value length escape noQuote ih =>
    obtain ⟨inner, tailFound, rfl⟩ := Option.map_eq_some_iff.mp h
    have inside : length < tail.length := by
      have less := readStringTail_length tailFound
      obtain ⟨k, same, closes⟩ := readStringTail_closes tailFound
      have bound := (List.getElem?_eq_some_iff.mp closes).choose
      omega
    rw [List.cons_append, readStringTail, if_neg noQuote, if_pos rfl, stringEscape?_append escape inside]
    simp only [ih tailFound, Option.map_some]
  | case7 c tail noQuote noEscape noBreak ih =>
    obtain ⟨inner, tailFound, rfl⟩ := Option.map_eq_some_iff.mp h
    rw [List.cons_append, readStringTail, if_neg noQuote, if_neg noEscape, if_neg noBreak,
      ih tailFound, Option.map_some]

theorem readString_append {found : List Char × Nat} (h : readString cs = some found) (rest : List Char) :
    readString (cs ++ rest) = some found := by
  fun_cases readString cs with
  | case1 tail | case2 tail =>
    rw [readString] at h
    obtain ⟨inner, tailFound, rfl⟩ := Option.map_eq_some_iff.mp h
    rw [List.cons_append, readString, readStringTail_append tailFound, Option.map_some]
  | case3 _ noDouble noSingle =>
    rw [readString] at h
    · cases h
    · exact noDouble
    · exact noSingle

end Strings

section Patterns

theorem regexBodyLength?_append {escaped inClass : Bool} (h : regexBodyLength? escaped inClass cs = some n)
    (rest : List Char) : regexBodyLength? escaped inClass (cs ++ rest) = some n := by
  fun_induction regexBodyLength? escaped inClass cs generalizing n with
  | case1 | case2 => cases h
  | case3 _ c tail noBreak ih =>
    obtain ⟨inner, found, rfl⟩ := Option.map_eq_some_iff.mp h
    rw [List.cons_append, regexBodyLength?, if_neg noBreak, if_pos rfl, ih found, Option.map_some]
  | case4 _ _ c tail noBreak plain closes =>
    cases h
    rw [List.cons_append, regexBodyLength?, if_neg noBreak, if_neg plain, if_pos closes]
  | case5 _ _ c tail noBreak plain goesOn ih =>
    obtain ⟨inner, found, rfl⟩ := Option.map_eq_some_iff.mp h
    rw [List.cons_append, regexBodyLength?, if_neg noBreak, if_neg plain, if_neg goesOn, ih found, Option.map_some]

theorem regexLength?_append {tail : List Char} (h : regexLength? ('/' :: tail) = some n) (rest : List Char) :
    regexLength? ('/' :: tail ++ '\n' :: rest) = some n := by
  unfold regexLength? at h ⊢
  rw [List.drop_succ_cons, List.drop_zero] at h
  rw [List.cons_append, List.drop_succ_cons, List.drop_zero]
  split at h
  · cases h
  · next body found =>
    have inside := (onLine_regexBody found).1
    rw [regexBodyLength?_append found]
    rw [List.drop_succ_cons] at h
    simp only
    rw [List.drop_succ_cons, List.drop_append_of_le_length inside]
    cases next : tail.drop body with
    | nil =>
      rw [next] at h
      exact h
    | cons c more =>
      rw [next] at h
      rw [List.cons_append]
      simp only [takeWhile_append_newline _ isNamePart_newline]
      exact h

theorem chunkLength?_append {escaped : Bool} (h : chunkLength? escaped cs = some n) (rest : List Char) :
    chunkLength? escaped (cs ++ rest) = some n := by
  fun_induction chunkLength? escaped cs generalizing n with
  | case1 => cases h
  | case2 c tail ih =>
    obtain ⟨inner, found, rfl⟩ := Option.map_eq_some_iff.mp h
    rw [List.cons_append, chunkLength?, ih found, Option.map_some]
  | case3 | case4 => exact h
  | case5 c tail noTick noBrace ih =>
    obtain ⟨inner, found, rfl⟩ := Option.map_eq_some_iff.mp h
    rw [List.cons_append, chunkLength?, ih found, Option.map_some]
    · exact noTick
    · intro more dollar eq
      cases tail with
      | nil => cases found
      | cons d tail => exact noBrace tail dollar (by rw [(List.cons.inj eq).1])

theorem chunk?_append {piece closer : Lexeme} {k : Nat}
    (h : chunk? cs = some (piece, n, closer, k)) (rest : List Char) :
    chunk? (cs ++ rest) = some (piece, n, closer, k) := by
  unfold chunk? at h ⊢
  cases found : chunkLength? false cs with
  | none =>
    rw [found] at h
    cases h
  | some length =>
    rw [found] at h
    rw [chunkLength?_append found]
    obtain ⟨more, closes⟩ := chunkLength_closes found
    have inside : length ≤ cs.length := by
      have pos := congrArg List.length (List.take_append_drop length cs)
      rcases closes with closes | closes
      all_goals
        have := congrArg List.length closes
        rw [List.length_drop] at this
        simp only [List.length_cons] at this
        omega
    simp only at h ⊢
    rw [List.take_append_of_le_length inside, List.drop_append_of_le_length inside]
    rcases closes with closes | closes <;> rw [closes] at h ⊢ <;> exact h

end Patterns

section Names

theorem readName_append {first : Bool} {skip : Nat} {reading : NameReading}
    (h : readName first skip cs = some reading)
    (bound : skip ≤ cs.length) (rest : List Char) : readName first skip (cs ++ '\n' :: rest) = some reading := by
  fun_induction readName first skip cs generalizing reading with
  | case1 first skip c tail ih =>
    obtain ⟨inner, found, rfl⟩ := Option.map_eq_some_iff.mp h
    rw [List.cons_append, readName, ih found (Nat.le_of_succ_le_succ bound), Option.map_some]
  | case2 first more value length escape isLetter ih =>
    obtain ⟨inner, found, rfl⟩ := Option.map_eq_some_iff.mp h
    have inside := (onLine_unicodeEscape escape).1
    have later := ih found (Nat.succ_le_succ inside)
    rw [List.cons_append] at later
    rw [List.cons_append, List.cons_append, readName, if_pos rfl, unicodeEscape?_append escape]
    simp only [if_pos isLetter, later, Option.map_some]
  | case3 | case4 | case5 => cases h
  | case6 first c tail noEscape isLetter ih =>
    obtain ⟨inner, found, rfl⟩ := Option.map_eq_some_iff.mp h
    rw [List.cons_append]
    unfold readName
    rw [if_neg noEscape, if_pos isLetter, ih found (Nat.zero_le _), Option.map_some]
  | case7 first c tail noEscape noLetter =>
    cases h
    rw [List.cons_append]
    unfold readName
    rw [if_neg noEscape, if_neg noLetter]
  | case8 first skip =>
    cases h
    obtain rfl : skip = 0 := Nat.le_zero.mp bound
    have noLetter : (if first then Text.isNameStart '\n' else Text.isNamePart '\n') = false := by
      rw [isNameStart_newline, isNamePart_newline, ite_self]
    rw [List.nil_append]
    unfold readName
    rw [if_neg (by decide), noLetter, if_neg (by decide)]

end Names

section Numbers

variable {base m : Nat}

theorem drop_append_newline (bound : m ≤ cs.length) (rest : List Char) :
    (cs ++ '\n' :: rest).drop m = cs.drop m ++ '\n' :: rest := by
  rw [List.drop_append_of_le_length bound]

theorem digitsLength?_append (base : Nat) (cs rest : List Char) :
    digitsLength? base (cs ++ '\n' :: rest) = digitsLength? base cs := by
  unfold digitsLength?
  rw [takeWhile_append_newline _ (by simp [digitValue?_newline])]

theorem endNumber?_append (bound : m ≤ cs.length) (rest : List Char) :
    endNumber? m (cs ++ '\n' :: rest) = endNumber? m cs := by
  unfold endNumber?
  rw [drop_append_newline bound]
  cases cs.drop m with
  | nil => rfl
  | cons c tail => rfl

theorem signLength_append (cs rest : List Char) : signLength (cs ++ '\n' :: rest) = signLength cs := by
  cases cs with
  | nil => rfl
  | cons c cs =>
    rw [List.cons_append]
    unfold signLength
    split <;> split <;> simp_all

theorem exponentLength?_append (bound : m ≤ cs.length) (rest : List Char) :
    exponentLength? m (cs ++ '\n' :: rest) = exponentLength? m cs := by
  unfold exponentLength?
  rw [drop_append_newline bound, endNumber?_append bound]
  cases next : cs.drop m with
  | nil =>
    have atEnd : endNumber? m cs = some m := by rw [endNumber?, next]
    exact atEnd
  | cons c tail =>
    have length := congrArg List.length next
    rw [List.length_drop, List.length_cons] at length
    rw [List.cons_append]
    simp only
    have signed := (onLine_sign tail).1
    rw [signLength_append, drop_append_newline signed, digitsLength?_append]
    cases digits : digitsLength? 10 (tail.drop (signLength tail)) with
    | none => rfl
    | some k =>
      have inside := (onLine_digits digits).1.1
      rw [List.length_drop] at inside
      simp only
      rw [endNumber?_append (by omega)]

theorem fractionLength_append (cs rest : List Char) : fractionLength (cs ++ '\n' :: rest) = fractionLength cs := by
  unfold fractionLength
  rw [takeWhile_append_newline _ (by decide)]

theorem radixLength?_append (bound : 2 ≤ cs.length) (rest : List Char) :
    radixLength? base (cs ++ '\n' :: rest) = radixLength? base cs := by
  unfold radixLength?
  rw [drop_append_newline bound, digitsLength?_append]
  cases digits : digitsLength? base (cs.drop 2) with
  | none => rfl
  | some k =>
    have inside := (onLine_digits digits).1.1
    rw [List.length_drop] at inside
    simp only
    rw [drop_append_newline (by omega), endNumber?_append (m := 2 + k) (by omega)]
    cases next : cs.drop (2 + k) with
    | nil => rfl
    | cons c tail =>
      have length := congrArg List.length next
      rw [List.length_drop, List.length_cons] at length
      rw [endNumber?_append (m := 3 + k) (by omega), List.cons_append]
      split <;> split <;> simp_all

theorem numberLength?_append (h : numberLength? cs = some n) (rest : List Char) :
    numberLength? (cs ++ '\n' :: rest) = some n := by
  have radix {a b : Char} {tail : List Char} {base : Nat} (found : radixLength? base (a :: b :: tail) = some n) :
      radixLength? base (a :: b :: (tail ++ '\n' :: rest)) = some n := by
    have same : radixLength? base (a :: b :: tail ++ '\n' :: rest) = radixLength? base (a :: b :: tail) :=
      radixLength?_append (by simp) rest
    exact same.trans found
  unfold numberLength? at h
  split at h
  · exact radix h
  · exact radix h
  · exact radix h
  · exact radix h
  · exact radix h
  · exact radix h
  · next tail =>
    have inside := (onLine_fraction tail).1
    have same : exponentLength? (1 + fractionLength tail) ('.' :: tail ++ '\n' :: rest) =
        exponentLength? (1 + fractionLength tail) ('.' :: tail) :=
      exponentLength?_append (by rw [List.length_cons]; omega) rest
    rw [List.cons_append, numberLength?, fractionLength_append]
    exact same.trans h
  · next noHex noHex' noOctal noOctal' noBinary noBinary' noDot =>
    have other {a b : Char} (clean : '\n' ∉ [a, b]) (none : ∀ tail, cs = a :: b :: tail → False) :
        ∀ tail, cs ++ '\n' :: rest = a :: b :: tail → False := by
      intro tail eq
      obtain ⟨others, same⟩ := leads_of_append [a, b] clean eq
      exact none others same
    rw [numberLength?, digitsLength?_append]
    · split at h
      · cases h
      · next digits found =>
        obtain ⟨inside, pos⟩ := onLine_digits found
        have nonempty : cs ≠ [] := by
          rintro rfl
          have := inside.1
          rw [List.length_nil] at this
          omega
        simp only at h ⊢
        rw [drop_append_newline inside.1, List.take_append_of_le_length inside.1,
          List.head?_append_of_ne_nil _ nonempty]
        generalize (decide (cs.head? = some '0') && decide (1 < digits) &&
          (cs.take digits).all fun c => decide (c ≠ '8') && decide (c ≠ '9')) = octal at h ⊢
        cases next : cs.drop digits with
        | nil =>
          rw [next] at h
          simp only [List.nil_append] at h ⊢
          rw [endNumber?_append inside.1, exponentLength?_append inside.1]
          exact h
        | cons c tail =>
          have length := congrArg List.length next
          rw [List.length_drop, List.length_cons] at length
          have fraction := (onLine_fraction tail).1
          rw [next] at h
          have behind : exponentLength? (digits + 1 + fractionLength tail) (cs ++ '\n' :: rest) =
              exponentLength? (digits + 1 + fractionLength tail) cs := exponentLength?_append (by omega) rest
          rw [List.cons_append, endNumber?_append (by omega), endNumber?_append inside.1,
            exponentLength?_append inside.1]
          split at h
          · next big =>
            obtain ⟨rfl, rfl⟩ := List.cons.inj big
            exact h
          · next dot =>
            obtain ⟨rfl, rfl⟩ := List.cons.inj dot
            simp only [fractionLength_append, behind]
            exact h
          · next noBig noDot =>
            split
            · next big => exact absurd (List.cons.inj big).1 fun same => noBig _ (by rw [same])
            · next dot => exact absurd (List.cons.inj dot).1 fun same => noDot _ (by rw [same])
            · exact h
    · exact other (by decide) noHex
    · exact other (by decide) noHex'
    · exact other (by decide) noOctal
    · exact other (by decide) noOctal'
    · exact other (by decide) noBinary
    · exact other (by decide) noBinary'
    · intro tail eq
      obtain ⟨others, same⟩ := leads_of_append ['.'] (by decide) eq
      exact noDot others same

end Numbers

section Tokens

variable {operandNext : Bool} {lexeme : Lexeme}

theorem scan?_append (cs rest : List Char) : Mark.scan? (cs ++ '\n' :: rest) = Mark.scan? cs := by
  unfold Mark.scan?
  rw [← List.head?_filter, ← List.head?_filter]
  congr 2
  exact List.filter_congr fun entry member => isPrefixOf_append_newline (clean_spellings entry member).1 cs rest

theorem scanSlash_append (cs rest : List Char) : Mark.scanSlash (cs ++ '\n' :: rest) = Mark.scanSlash cs := by
  fun_cases Mark.scanSlash cs with
  | case1 tail => rfl
  | case2 _ noEquals =>
    rw [Mark.scanSlash]
    intro tail eq
    obtain ⟨others, same⟩ := leads_of_append ['/', '='] (by decide) eq
    exact noEquals others same

theorem lexeme?_append (h : lexeme? operandNext cs = some (lexeme, n)) (rest : List Char) :
    lexeme? operandNext (cs ++ '\n' :: rest) = some (lexeme, n) := by
  have inside := (isText_lexeme h).le_length
  cases cs with
  | nil => cases h
  | cons c tail =>
    rw [List.cons_append]
    rw [lexeme?] at h ⊢
    have digit : (tail ++ '\n' :: rest).head?.any Char.isDigit = tail.head?.any Char.isDigit := by
      cases tail <;> rfl
    rw [digit]
    split at h
    · next starts =>
      split at h
      · next reading read =>
        have read' := readName_append read (Nat.zero_le _) rest
        rw [List.cons_append] at read'
        rw [if_pos starts, read']
        exact h
      · cases h
    · next noWord =>
      rw [if_neg noWord]
      split at h
      · next quote =>
        obtain ⟨found, read, same⟩ := Option.map_eq_some_iff.mp h
        have read' := readString_append read ('\n' :: rest)
        rw [List.cons_append] at read'
        rw [if_pos quote, read', Option.map_some, same]
      · next noQuote =>
        rw [if_neg noQuote]
        split at h
        · next isNumber =>
          obtain ⟨found, read, same⟩ := Option.map_eq_some_iff.mp h
          obtain ⟨rfl, rfl⟩ := Prod.mk.inj same
          have read' := numberLength?_append read rest
          rw [List.cons_append] at read'
          rw [if_pos isNumber, read', Option.map_some, ← List.cons_append, List.take_append_of_le_length inside]
        · next noNumber =>
          rw [if_neg noNumber]
          split at h
          · next slash =>
            obtain ⟨found, read, same⟩ := Option.map_eq_some_iff.mp h
            obtain ⟨rfl, rfl⟩ := Prod.mk.inj same
            obtain ⟨rfl, _⟩ : c = '/' ∧ operandNext = true := by simpa using slash
            have read' := regexLength?_append read rest
            rw [List.cons_append] at read'
            rw [if_pos slash, read', Option.map_some, ← List.cons_append, List.take_append_of_le_length inside]
          · next noRegex =>
            rw [if_neg noRegex, ← List.cons_append, scanSlash_append, scan?_append]
            exact h

end Tokens

end ModuleBundler.Script.Lexer
