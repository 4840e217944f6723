import ModuleBundler.Proofs.Text.Quoted
import ModuleBundler.Script.Lexer

namespace ModuleBundler.Script.Lexer

variable {cs more : List Char} {value : Char} {n : Nat}

theorem readStringTail_skip (quote : Char) (bound : n ≤ cs.length) :
    readStringTail quote n cs = (readStringTail quote 0 (cs.drop n)).map fun found => (found.1, found.2 + n) := by
  induction n generalizing cs with
  | zero => simp
  | succ n ih =>
    cases cs with
    | nil => cases bound
    | cons c rest =>
      have inner := @ih rest (Nat.le_of_succ_le_succ bound)
      rw [readStringTail, inner, Option.map_map, List.drop_succ_cons]
      rfl

/-- An escape is read as the character that it stands for. -/
theorem readStringTail_escape (escape : stringEscape? cs = some (some value, n)) (bound : n ≤ cs.length) :
    readStringTail '"' 0 ('\\' :: cs) =
      (readStringTail '"' 0 (cs.drop n)).map fun found => (value :: found.1, found.2 + (n + 1)) := by
  have skipped := readStringTail_skip '"' bound
  rw [readStringTail, if_neg (by decide), if_pos rfl, escape]
  simp only
  rw [skipped, Option.map_map]
  rfl

theorem readStringTail_plain (noQuote : value ≠ '"') (noEscape : value ≠ '\\')
    (noBreak : value ≠ '\n' ∧ value ≠ '\r') :
    readStringTail '"' 0 (value :: cs) = (readStringTail '"' 0 cs).map fun found =>
        (value :: found.1, found.2 + 1) := by
  rw [readStringTail, if_neg noQuote, if_neg noEscape, if_neg (by simpa using noBreak)]

theorem digitValue?_hexDigit (small : n < 16) : digitValue? 16 (Text.hexDigit n) = some n := by
  have each : ∀ n < 16, digitValue? 16 (Text.hexDigit n) = some n := by decide
  exact each n small

/-- The four digits of an escaped control character are those of its number. -/
theorem stringEscape?_control (control : value.toNat < 32) :
    stringEscape?
        ('u' :: '0' :: '0' :: Text.hexDigit (value.toNat / 16) :: Text.hexDigit (value.toNat % 16) :: more) =
      some (some value, 5) := by
  have high := digitValue?_hexDigit (n := value.toNat / 16) (by omega)
  have low := digitValue?_hexDigit (n := value.toNat % 16) (by omega)
  have zero : digitValue? 16 '0' = some 0 := by decide
  have number : 16 * (16 * (16 * (16 * 0 + 0) + 0) + value.toNat / 16) + value.toNat % 16 = value.toNat := by omega
  have digits : fixedHex? 4 0
      ('0' :: '0' :: Text.hexDigit (value.toNat / 16) :: Text.hexDigit (value.toNat % 16) :: more) =
          some value.toNat := by
    simp only [fixedHex?, zero, high, low, number]
  rw [stringEscape?, unicodeEscape?]
  · rw [digits]
    simp only [Option.map_some, Char.ofNat_toNat]
  · intro rest same
    cases same

theorem stringEscape?_letter {letter : Char} (escape : (letter, value) ∈ Text.letterEscapes) :
    stringEscape? (letter :: more) = some (some value, 1) := by
  simp only [Text.letterEscapes, List.mem_cons, Prod.mk.injEq, List.not_mem_nil, or_false] at escape
  rcases escape with ⟨rfl, rfl⟩ | ⟨rfl, rfl⟩ | ⟨rfl, rfl⟩ | ⟨rfl, rfl⟩ | ⟨rfl, rfl⟩ | ⟨rfl, rfl⟩ | ⟨rfl, rfl⟩
  all_goals rfl

/-- A quoted character is read as the character. -/
theorem readStringTail_quoteChar (c : Char) (more : List Char) :
    readStringTail '"' 0 (Text.quoteChar c ++ more) =
      (readStringTail '"' 0 more).map fun found => (c :: found.1, found.2 + (Text.quoteChar c).length) := by
  rcases Text.quoteChar_cases c with ⟨letter, escape, eq⟩ | ⟨control, eq⟩ | ⟨noQuote, noEscape, visible, eq⟩
  · rw [eq]
    exact readStringTail_escape (stringEscape?_letter escape) (Nat.succ_le_succ (Nat.zero_le _))
  · rw [eq, Text.numberEscape]
    exact readStringTail_escape (stringEscape?_control control) (by simp)
  · have noBreak : c ≠ '\n' ∧ c ≠ '\r' := by
      constructor
      all_goals
        rintro rfl
        exact absurd visible (by decide)
    rw [eq]
    exact readStringTail_plain noQuote noEscape noBreak

theorem readStringTail_quoted (content rest : List Char) :
    readStringTail '"' 0 (content.flatMap Text.quoteChar ++ '"' :: rest) =
      some (content, (content.flatMap Text.quoteChar).length + 1) := by
  induction content with
  | nil => rfl
  | cons c content ih =>
    rw [List.flatMap_cons, List.append_assoc, readStringTail_quoteChar, ih, Option.map_some, List.length_append]
    congr 2
    omega

/-- A quoted text is read as the text, and nothing of what follows it. -/
theorem readString_quote (content rest : List Char) :
    readString (Text.quote content ++ rest) = some (content, (Text.quote content).length) := by
  have tail := readStringTail_quoted content rest
  have whole : Text.quote content ++ rest = '"' :: (content.flatMap Text.quoteChar ++ '"' :: rest) := by
    simp [Text.quote]
  rw [whole, readString, tail, Option.map_some]
  simp [Text.quote]

end ModuleBundler.Script.Lexer
