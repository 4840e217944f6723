import Mathlib.Data.List.Basic
import Mathlib.Data.List.TakeDrop
import ModuleBundler.Script.Lexer

namespace ModuleBundler.Script.Lexer

/-- The first characters of a text, none of which ends a line. -/
def OnLine (cs : List Char) (n : Nat) : Prop := n ≤ cs.length ∧ '\n' ∉ cs.take n

section OnLine

variable {cs rest : List Char} {c : Char} {m n : Nat}

theorem onLine_zero (cs : List Char) : OnLine cs 0 := ⟨Nat.zero_le _, by simp⟩

theorem OnLine.cons (h : OnLine rest n) (other : c ≠ '\n') : OnLine (c :: rest) (n + 1) := by
  refine ⟨Nat.succ_le_succ h.1, ?_⟩
  rw [List.take_succ_cons, List.mem_cons, not_or]
  exact ⟨other.symm, h.2⟩

theorem OnLine.add (first : OnLine cs m) (second : OnLine (cs.drop m) n) : OnLine cs (m + n) := by
  have bound := second.1
  rw [List.length_drop] at bound
  refine ⟨by have := first.1; omega, ?_⟩
  rw [List.take_add, List.mem_append, not_or]
  exact ⟨first.2, second.2⟩

theorem onLine_takeWhile (p : Char → Bool) (stops : p '\n' = false) (cs : List Char) :
    OnLine cs (cs.takeWhile p).length := by
  have leads := List.takeWhile_prefix (l := cs) p
  refine ⟨leads.length_le, fun member => ?_⟩
  rw [← List.prefix_iff_eq_take.mp leads] at member
  have holds := List.all_eq_true.mp List.all_takeWhile _ member
  rw [stops] at holds
  cases holds

theorem onLine_isPrefixOf {spelling : List Char} (h : spelling.isPrefixOf cs = true) (clean : '\n' ∉ spelling) :
    OnLine cs spelling.length := by
  have leads := List.isPrefixOf_iff_prefix.mp h
  refine ⟨leads.length_le, ?_⟩
  rwa [← List.prefix_iff_eq_take.mp leads]

end OnLine

section Escape

variable {cs : List Char} {n : Nat}

theorem digitValue?_newline (base : Nat) : digitValue? base '\n' = none := by
  simp [digitValue?]

theorem onLine_fixedHex {count value found : Nat} (h : fixedHex? count value cs = some found) : OnLine cs count := by
  induction cs generalizing count value with
  | nil =>
    cases count with
    | zero => exact onLine_zero []
    | succ count => cases h
  | cons c rest ih =>
    cases count with
    | zero => exact onLine_zero _
    | succ count =>
      rw [fixedHex?] at h
      split at h
      · next digit isDigit =>
        refine (ih h).cons fun newline => ?_
        rw [newline, digitValue?_newline] at isDigit
        cases isDigit
      · cases h

theorem onLine_bracedHex {any : Bool} {value found : Nat} (h : bracedHex? any value cs = some (found, n)) :
    OnLine cs n := by
  induction cs generalizing any value n with
  | nil => cases h
  | cons c rest ih =>
    rw [bracedHex?] at h
    split at h
    · next closes =>
      split at h
      · cases h
        exact (onLine_zero rest).cons (closes ▸ by decide)
      · cases h
    · split at h
      · next digit isDigit =>
        split at h
        · obtain ⟨⟨_, m⟩, inner, same⟩ := Option.map_eq_some_iff.mp h
          cases same
          refine (ih inner).cons fun newline => ?_
          rw [newline, digitValue?_newline] at isDigit
          cases isDigit
        · cases h
      · cases h

theorem onLine_unicodeEscape {value : Char} (h : unicodeEscape? cs = some (value, n)) : OnLine cs n := by
  unfold unicodeEscape? at h
  split at h
  · obtain ⟨⟨_, m⟩, inner, same⟩ := Option.map_eq_some_iff.mp h
    cases same
    exact (onLine_bracedHex inner).cons (by decide)
  · obtain ⟨_, inner, same⟩ := Option.map_eq_some_iff.mp h
    cases same
    exact onLine_fixedHex inner

end Escape

section Names

variable {cs : List Char} {first : Bool} {reading : NameReading}

theorem isNameStart_newline : Text.isNameStart '\n' = false := by decide

theorem isNamePart_newline : Text.isNamePart '\n' = false := by decide

/-- What holds of no character of these numbers holds of no white space. -/
theorem eq_false_of_blank {p : Char → Bool} (low : ∀ n ≤ 13, p (Char.ofNat n) = false)
    (spaces : ∀ k ≤ 10, p (Char.ofNat (0x2000 + k)) = false)
    (others : ∀ n ∈ [0x20, 0x85, 0xa0, 0x1680, 0x2028, 0x2029, 0x202f, 0x205f, 0x3000, 0xfeff],
      p (Char.ofNat n) = false)
    {c : Char} (blank : Text.isScriptBlank c = true) : p c = false := by
  simp only [Text.isScriptBlank, Text.isBlank, Bool.or_eq_true, Bool.and_eq_true, decide_eq_true_eq, beq_iff_eq]
    at blank
  rw [← Char.ofNat_toNat c]
  by_cases isLow : c.toNat ≤ 13
  · exact low _ isLow
  by_cases isSpace : 0x2000 ≤ c.toNat ∧ c.toNat ≤ 0x200a
  · have number : 0x2000 + (c.toNat - 0x2000) = c.toNat := by omega
    rw [← number]
    exact spaces _ (by omega)
  · refine others _ ?_
    simp only [List.mem_cons, List.not_mem_nil, or_false]
    generalize c.toNat = n at *
    omega

/-- No name begins with white space. -/
theorem not_isNameStart_of_blank {c : Char} (blank : Text.isScriptBlank c = true) : Text.isNameStart c = false :=
  eq_false_of_blank (by decide) (by decide +kernel) (by decide +kernel) blank

/-- No white space stands in a name. -/
theorem not_isNamePart_of_blank {c : Char} (blank : Text.isScriptBlank c = true) : Text.isNamePart c = false :=
  eq_false_of_blank (by decide) (by decide +kernel) (by decide +kernel) blank

theorem onLine_readName {skip : Nat} (h : readName first skip cs = some reading) (skipped : '\n' ∉ cs.take skip) :
    OnLine cs reading.length := by
  fun_induction readName first skip cs generalizing reading with
  | case1 first skip c rest ih =>
    obtain ⟨inner, found, rfl⟩ := Option.map_eq_some_iff.mp h
    rw [List.take_succ_cons, List.mem_cons, not_or] at skipped
    exact (ih found skipped.2).cons (Ne.symm skipped.1)
  | case2 first more value length escape _ ih =>
    obtain ⟨inner, found, rfl⟩ := Option.map_eq_some_iff.mp h
    have clean := ((onLine_unicodeEscape escape).cons (c := 'u') (by decide)).2
    exact (ih found clean).cons (by decide)
  | case3 | case4 | case5 => cases h
  | case6 first c rest _ isPart ih =>
    obtain ⟨inner, found, rfl⟩ := Option.map_eq_some_iff.mp h
    refine (ih found (by simp)).cons fun newline => ?_
    rw [newline, isNameStart_newline, isNamePart_newline] at isPart
    simp at isPart
  | case7 | case8 =>
    cases h
    exact onLine_zero _

/-- A name that begins like one is not empty. -/
theorem readName_pos {skip : Nat} (h : readName first skip cs = some reading) (start : skip = 0)
    (isFirst : first = true) (starts : ∃ c ∈ cs.head?, c = '\\' ∨ Text.isNameStart c = true) :
    0 < reading.length ∧ reading.letters ≠ [] := by
  fun_induction readName first skip cs generalizing reading with
  | case1 => cases start
  | case2 | case6 =>
    obtain ⟨inner, _, rfl⟩ := Option.map_eq_some_iff.mp h
    exact ⟨Nat.succ_pos _, List.cons_ne_nil _ _⟩
  | case3 | case4 | case5 => cases h
  | case7 first c rest noEscape noStart =>
    obtain ⟨d, same, starts⟩ := starts
    cases same
    subst isFirst
    exact absurd (starts.resolve_left noEscape) noStart
  | case8 =>
    obtain ⟨d, same, _⟩ := starts
    cases same

/-- A name without escapes stands in the text as it is read. -/
theorem letters_eq_take {skip : Nat} (h : readName first skip cs = some reading) (start : skip = 0)
    (plain : reading.escaped = false) : reading.letters = cs.take reading.length := by
  fun_induction readName first skip cs generalizing reading with
  | case1 => cases start
  | case2 =>
    obtain ⟨inner, _, rfl⟩ := Option.map_eq_some_iff.mp h
    cases plain
  | case3 | case4 | case5 => cases h
  | case6 first c rest _ _ ih =>
    obtain ⟨inner, found, rfl⟩ := Option.map_eq_some_iff.mp h
    rw [List.take_succ_cons, ← ih found rfl plain]
  | case7 | case8 =>
    cases h
    rfl

theorem letters_cons {c : Char} {rest : List Char} (h : readName first 0 (c :: rest) = some reading)
    (noEscape : c ≠ '\\') :
    reading.letters = [] ∨ ∃ inner, readName false 0 rest = some inner ∧ reading.letters = c :: inner.letters := by
  unfold readName at h
  rw [if_neg noEscape] at h
  by_cases isPart : (if first then Text.isNameStart c else Text.isNamePart c) = true
  · rw [if_pos isPart] at h
    obtain ⟨inner, found, rfl⟩ := Option.map_eq_some_iff.mp h
    exact Or.inr ⟨inner, found, rfl⟩
  · rw [if_neg isPart] at h
    cases h
    exact Or.inl rfl

/-- A name that is long enough begins with the letters that stand in the text. -/
theorem letters_of_prefix {letters : List Char} (h : readName first 0 cs = some reading) (leads : letters <+: cs)
    (plain : '\\' ∉ letters) (long : letters.length ≤ reading.letters.length) : letters <+: reading.letters := by
  induction letters generalizing cs first reading with
  | nil => exact List.nil_prefix
  | cons c letters ih =>
    obtain ⟨rest, rfl⟩ := leads
    rw [List.mem_cons, not_or] at plain
    rcases letters_cons h (Ne.symm plain.1) with none | ⟨inner, found, same⟩
    · rw [none] at long
      cases long
    · rw [same] at long ⊢
      exact (List.prefix_cons_inj c).mpr (ih found (List.prefix_append _ _) plain.2 (Nat.le_of_succ_le_succ long))

/-- Letters that a name may consist of, from its beginning or from further behind on. -/
def AreLetters (first : Bool) : List Char → Prop
  | [] => True
  | c :: rest =>
    (if first then Text.isNameStart c else Text.isNamePart c) = true ∧ ∀ d ∈ rest, Text.isNamePart d = true

theorem AreLetters.all {letters : List Char} (areLetters : AreLetters false letters) :
    ∀ d ∈ letters, Text.isNamePart d = true := by
  cases letters with
  | nil => simp
  | cons c rest =>
    intro d member
    rcases List.mem_cons.mp member with rfl | later
    · exact areLetters.1
    · exact areLetters.2 d later

/-- All letters of a name may stand in one, those that an escape stands for too. -/
theorem areLetters_readName {skip : Nat} (h : readName first skip cs = some reading) :
    AreLetters first reading.letters := by
  fun_induction readName first skip cs generalizing reading with
  | case1 first skip c rest ih =>
    obtain ⟨inner, found, rfl⟩ := Option.map_eq_some_iff.mp h
    have inside := ih found
    exact inside
  | case2 first more value length _ isLetter ih =>
    obtain ⟨inner, found, rfl⟩ := Option.map_eq_some_iff.mp h
    exact ⟨isLetter, (ih found).all⟩
  | case3 | case4 | case5 => cases h
  | case6 first c rest _ isLetter ih =>
    obtain ⟨inner, found, rfl⟩ := Option.map_eq_some_iff.mp h
    exact ⟨isLetter, (ih found).all⟩
  | case7 | case8 =>
    cases h
    trivial

/-- Letters that nothing of a name follows are read as a name. -/
theorem readName_letters {letters rest : List Char} (areLetters : AreLetters first letters)
    (ends : ∀ d ∈ rest.head?, d ≠ '\\' ∧ Text.isNamePart d = false ∧ Text.isNameStart d = false) :
    readName first 0 (letters ++ rest) = some ⟨letters, letters.length, false⟩ := by
  induction letters generalizing first with
  | nil =>
    cases rest with
    | nil => simp [readName]
    | cons d rest =>
      obtain ⟨noEscape, noPart, noStart⟩ := ends d rfl
      have noLetter : (if first then Text.isNameStart d else Text.isNamePart d) = false := by
        cases first
        · exact noPart
        · exact noStart
      simp [readName, noEscape, noLetter]
  | cons c letters ih =>
    have noEscape : c ≠ '\\' := by
      rintro rfl
      have starts := areLetters.1
      cases first <;> revert starts <;> decide
    have areParts : AreLetters false letters := by
      cases letters with
      | nil => trivial
      | cons d letters =>
        exact ⟨areLetters.2 d List.mem_cons_self, fun e member => areLetters.2 e (List.mem_cons_of_mem _ member)⟩
    unfold readName
    simp only [List.cons_append, if_neg noEscape, if_pos areLetters.1, ih areParts]
    rfl

end Names

section Numbers

variable {cs : List Char} {base m n : Nat}

theorem OnLine.of_drop {c : Char} {rest : List Char} (first : OnLine cs n) (next : cs.drop n = c :: rest)
    (other : c ≠ '\n') : OnLine cs (n + 1) :=
  first.add (next ▸ (onLine_zero rest).cons other)

theorem onLine_digits (h : digitsLength? base cs = some n) : OnLine cs n ∧ 0 < n := by
  unfold digitsLength? at h
  simp only at h
  split at h
  · cases h
  · next any =>
    cases h
    refine ⟨onLine_takeWhile _ (by simp [digitValue?_newline]) cs, List.length_pos_iff.mpr fun none => any ?_⟩
    rw [none]
    rfl

theorem endNumber?_eq (h : endNumber? m cs = some n) : n = m := by
  unfold endNumber? at h
  split at h
  · split at h
    · cases h
    · cases h
      rfl
  · cases h
    rfl

theorem onLine_sign (cs : List Char) : OnLine cs (signLength cs) := by
  fun_cases signLength cs with
  | case1 | case2 => exact (onLine_zero _).cons (by decide)
  | case3 => exact onLine_zero _

theorem onLine_exponent (h : exponentLength? m cs = some n) (first : OnLine cs m) : OnLine cs n ∧ m ≤ n := by
  unfold exponentLength? at h
  split at h
  · next c rest next =>
    split at h
    · next isExponent =>
      have noBreak : c ≠ '\n' := by
        rintro rfl
        exact absurd isExponent (by decide)
      simp only at h
      split at h
      · next digits found =>
        have whole := first.add (next ▸ ((onLine_sign rest).add (onLine_digits found).1).cons noBreak)
        rw [endNumber?_eq h]
        refine ⟨?_, by omega⟩
        convert whole using 1
        omega
      · cases h
    · rw [endNumber?_eq h]
      exact ⟨first, Nat.le_refl _⟩
  · cases h
    exact ⟨first, Nat.le_refl _⟩

theorem onLine_radix (h : radixLength? base cs = some n) (first : OnLine cs 2) : OnLine cs n ∧ 0 < n := by
  unfold radixLength? at h
  split at h
  · next digits found =>
    have whole := first.add (onLine_digits found).1
    split at h
    · next rest next =>
      rw [endNumber?_eq h]
      refine ⟨?_, by omega⟩
      convert whole.of_drop next (by decide) using 1
      omega
    · rw [endNumber?_eq h]
      exact ⟨whole, by omega⟩
  · cases h

theorem onLine_fraction (cs : List Char) : OnLine cs (fractionLength cs) := onLine_takeWhile _ (by decide) cs

theorem onLine_number (h : numberLength? cs = some n) : OnLine cs n ∧ 0 < n := by
  have two {a b : Char} {rest : List Char} (first : a ≠ '\n') (second : b ≠ '\n') : OnLine (a :: b :: rest) 2 :=
    ((onLine_zero rest).cons second).cons first
  unfold numberLength? at h
  split at h
  · exact onLine_radix h (two (by decide) (by decide))
  · exact onLine_radix h (two (by decide) (by decide))
  · exact onLine_radix h (two (by decide) (by decide))
  · exact onLine_radix h (two (by decide) (by decide))
  · exact onLine_radix h (two (by decide) (by decide))
  · exact onLine_radix h (two (by decide) (by decide))
  · next rest =>
    have dotted := (onLine_fraction rest).cons (c := '.') (by decide)
    rw [Nat.add_comm] at h
    have found := onLine_exponent h dotted
    exact ⟨found.1, by omega⟩
  · split at h
    · cases h
    · next digits found =>
      have read := onLine_digits found
      simp only at h
      split at h
      · next rest next =>
        rw [endNumber?_eq h]
        exact ⟨read.1.of_drop next (by decide), by omega⟩
      · next rest next =>
        split at h
        · cases h
          exact read
        · have dotted := (read.1.of_drop next (by decide)).add (n := fractionLength rest)
            (by rw [← List.tail_drop, next]; exact onLine_fraction rest)
          have found := onLine_exponent h dotted
          exact ⟨found.1, by omega⟩
      · split at h
        · rw [endNumber?_eq h]
          exact read
        · have found := onLine_exponent h read.1
          exact ⟨found.1, by omega⟩

end Numbers

end ModuleBundler.Script.Lexer
