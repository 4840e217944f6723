import ModuleBundler.Text.Quoted

namespace ModuleBundler.Text

/-- The letters that stand behind a backslash for a character. -/
def letterEscapes : List (Char × Char) :=
  [('"', '"'), ('\\', '\\'), ('n', '\n'), ('r', '\r'), ('t', '\t'), ('b', '\x08'), ('f', '\x0c')]

/-- How a control character stands between quotes that no letter stands for. -/
def numberEscape (c : Char) : List Char := ['\\', 'u', '0', '0', hexDigit (c.toNat / 16), hexDigit (c.toNat % 16)]

theorem quoteChar_cases (c : Char) :
    (∃ letter, (letter, c) ∈ letterEscapes ∧ quoteChar c = ['\\', letter]) ∨
      (c.toNat < 32 ∧ quoteChar c = numberEscape c) ∨
      (c ≠ '"' ∧ c ≠ '\\' ∧ 32 ≤ c.toNat ∧ quoteChar c = [c]) := by
  by_cases isLetter : ∃ letter, (letter, c) ∈ letterEscapes
  · obtain ⟨letter, member⟩ := isLetter
    have each : ∀ escape ∈ letterEscapes, quoteChar escape.2 = ['\\', escape.1] := by decide
    exact Or.inl ⟨letter, member, each _ member⟩
  · have other (escape : Char × Char) (member : escape ∈ letterEscapes) : c ≠ escape.2 := by
      rintro rfl
      exact isLetter ⟨escape.1, member⟩
    have noBack : c.toNat ≠ 8 := fun back => other ('b', '\x08') (by decide) (Char.ext (UInt32.toNat_inj.mp back))
    have noForm : c.toNat ≠ 12 := fun form => other ('f', '\x0c') (by decide) (Char.ext (UInt32.toNat_inj.mp form))
    have noQuote := other ('"', '"') (by decide)
    have noEscape := other ('\\', '\\') (by decide)
    have unfolded : quoteChar c = if c.toNat < 0x20 then numberEscape c else [c] := by
      rw [quoteChar, if_neg noQuote, if_neg noEscape, if_neg (other ('n', '\n') (by decide)),
        if_neg (other ('r', '\r') (by decide)), if_neg (other ('t', '\t') (by decide)), if_neg noBack, if_neg noForm]
      rfl
    by_cases control : c.toNat < 32
    · exact Or.inr (Or.inl ⟨control, by rw [unfolded, if_pos control]⟩)
    · exact Or.inr (Or.inr ⟨noQuote, noEscape, Nat.le_of_not_lt control, by rw [unfolded, if_neg control]⟩)

theorem isASCII_hexDigit {n : Nat} (small : n < 16) : 48 ≤ (hexDigit n).toNat ∧ (hexDigit n).toNat < 128 := by
  have each : ∀ n < 16, 48 ≤ (hexDigit n).toNat ∧ (hexDigit n).toNat < 128 := by decide
  exact each n small

/-- No control character stands in a quoted text. -/
theorem le_of_mem_quote {cs : List Char} {d : Char} (member : d ∈ quote cs) : 32 ≤ d.toNat := by
  rw [quote, List.mem_cons, List.mem_append, List.mem_singleton, List.mem_flatMap] at member
  rcases member with rfl | ⟨c, _, inside⟩ | rfl
  · decide
  · rcases quoteChar_cases c with ⟨letter, escape, eq⟩ | ⟨control, eq⟩ | ⟨_, _, visible, eq⟩
    · have each : ∀ escape ∈ letterEscapes, 32 ≤ escape.1.toNat := by decide
      rw [eq, List.mem_cons, List.mem_singleton] at inside
      rcases inside with rfl | rfl
      · decide
      · exact each _ escape
    · have high := (isASCII_hexDigit (n := c.toNat / 16) (by omega)).1
      have low := (isASCII_hexDigit (n := c.toNat % 16) (by omega)).1
      rw [eq, numberEscape] at inside
      simp only [List.mem_cons, List.not_mem_nil, or_false] at inside
      rcases inside with rfl | rfl | rfl | rfl | rfl | rfl
      · decide
      · decide
      · decide
      · decide
      · omega
      · omega
    · rw [eq, List.mem_singleton] at inside
      exact inside ▸ visible
  · decide

/-- How many backslashes a text ends with. Behind an odd number of them, a character is escaped. -/
def backslashesAtEnd (cs : List Char) : Nat := (cs.reverse.takeWhile (· = '\\')).length

/-- Backslashes that come in pairs escape nothing behind them. -/
theorem backslashesAtEnd_append {front : List Char} (paired : backslashesAtEnd front % 2 = 0) (back : List Char) :
    backslashesAtEnd (front ++ back) % 2 = backslashesAtEnd back % 2 := by
  unfold backslashesAtEnd at *
  rw [List.reverse_append, List.takeWhile_append]
  split
  · next all =>
    rw [List.length_append, all]
    omega
  · rfl

theorem backslashesAtEnd_quoteChar (c : Char) : backslashesAtEnd (quoteChar c) % 2 = 0 := by
  rcases quoteChar_cases c with ⟨letter, escape, eq⟩ | ⟨control, eq⟩ | ⟨_, noEscape, _, eq⟩
  · have each : ∀ escape ∈ letterEscapes, backslashesAtEnd ['\\', escape.1] % 2 = 0 := by decide
    exact eq ▸ each _ escape
  · have each : ∀ n < 16, ∀ k < 16, backslashesAtEnd ['\\', 'u', '0', '0', hexDigit n, hexDigit k] % 2 = 0 := by
      decide
    exact eq ▸ each (c.toNat / 16) (by omega) (c.toNat % 16) (by omega)
  · rw [eq, backslashesAtEnd, List.reverse_singleton, List.takeWhile_cons_of_neg (by simpa using noEscape)]
    rfl

/-- A quote is quoted behind one backslash, and no other character by a quote. -/
theorem escaped_of_quoteChar {c : Char} {i : Nat} (here : (quoteChar c)[i]? = some '"') :
    backslashesAtEnd ((quoteChar c).take i) % 2 = 1 := by
  rcases quoteChar_cases c with ⟨letter, escape, eq⟩ | ⟨control, eq⟩ | ⟨noQuote, _, _, eq⟩
  · rw [eq] at here ⊢
    match i, here with
    | 0, here => cases here
    | 1, _ => rfl
  · have each : ∀ n < 16, hexDigit n ≠ '"' := by decide
    have member := List.mem_of_getElem? here
    rw [eq, numberEscape] at member
    simp only [List.mem_cons, List.not_mem_nil, or_false] at member
    rcases member with no | no | no | no | no | no
    · cases no
    · cases no
    · cases no
    · cases no
    · exact absurd no.symm (each _ (by omega))
    · exact absurd no.symm (each _ (by omega))
  · have member := List.mem_of_getElem? here
    rw [eq, List.mem_singleton] at member
    exact absurd member.symm noQuote

/-- Each quote between the quotes of a quoted text is escaped. -/
theorem escaped_of_quoted (content : List Char) {i : Nat} (here : (content.flatMap quoteChar)[i]? = some '"') :
    backslashesAtEnd ((content.flatMap quoteChar).take i) % 2 = 1 := by
  induction content generalizing i with
  | nil => cases here
  | cons c content ih =>
    rw [List.flatMap_cons] at here ⊢
    by_cases inside : i < (quoteChar c).length
    · rw [List.getElem?_append_left inside] at here
      rw [List.take_append_of_le_length (Nat.le_of_lt inside)]
      exact escaped_of_quoteChar here
    · have behind := Nat.le_of_not_lt inside
      rw [List.getElem?_append_right behind] at here
      rw [List.take_append, List.take_of_length_le behind, backslashesAtEnd_append (backslashesAtEnd_quoteChar c)]
      exact ih here

end ModuleBundler.Text
