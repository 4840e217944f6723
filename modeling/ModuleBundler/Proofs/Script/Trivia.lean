import Mathlib.Data.List.TakeWhile
import ModuleBundler.Script.Lexer.Trivia

namespace ModuleBundler.Script.Lexer

variable {mode : TriviaMode} {broken after : Bool} {cs : List Char} {n k : Nat}

/-- Whether a text begins with a token, or is at its end. -/
def IsSolid : List Char → Prop
  | [] => True
  | c :: rest => Text.isScriptBlank c = false ∧ ∀ d more, rest = d :: more → c = '/' → d ≠ '/' ∧ d ≠ '*'

theorem further_eq_some {count : Nat} {found : Option (Nat × Bool)}
    (h : trivia.further count found = some (n, after)) :
    ∃ m, found = some (m, after) ∧ n = m + count := by
  obtain ⟨⟨m, b⟩, eq, same⟩ := Option.map_eq_some_iff.mp h
  cases same
  exact ⟨m, eq, rfl⟩

theorem trivia_le_length (h : trivia mode broken cs = some (n, after)) : n ≤ cs.length := by
  fun_induction trivia mode broken cs generalizing n with
  | case1 => cases h
  | case2 | case13 =>
    cases h
    exact Nat.zero_le _
  | case3 _ _ ih | case4 _ _ _ _ ih | case5 _ _ _ _ ih | case6 _ _ _ _ ih | case7 _ _ ih | case8 _ _ ih
  | case9 _ _ ih | case10 _ ih | case11 _ _ _ _ _ _ _ _ ih | case12 _ _ _ _ _ _ _ _ _ ih =>
    obtain ⟨m, found, rfl⟩ := further_eq_some h
    have := ih found
    simp only [List.length_cons]
    omega

/-- Where a token begins on a line, nothing stands before it. -/
theorem trivia_solid {c : Char} {rest : List Char} (noBlank : Text.isScriptBlank c = false)
    (noComment : c ≠ '/' ∧ c ≠ '<') :
    trivia .between false (c :: rest) = some (0, false) := by
  generalize eq : c :: rest = cs
  generalize isBetween : TriviaMode.between = mode
  generalize unbroken : false = broken
  fun_cases trivia mode broken cs
  all_goals simp_all

theorem trivia_space {c : Char} {rest : List Char} (noBlank : Text.isScriptBlank c = false)
    (noComment : c ≠ '/' ∧ c ≠ '<') :
    trivia .between false (' ' :: c :: rest) = some (1, false) := by
  have behind : trivia .between false (c :: rest) = some (0, false) := trivia_solid noBlank noComment
  have gap : trivia .between false (' ' :: c :: rest) = trivia.further 1 (trivia .between false (c :: rest)) := rfl
  rw [gap, behind]
  rfl

/-- Behind white space and comments stands a token. -/
theorem isSolid_drop_trivia (h : trivia mode broken cs = some (n, after)) : IsSolid (cs.drop n) := by
  fun_induction trivia mode broken cs generalizing n with
  | case1 => cases h
  | case2 =>
    cases h
    trivial
  | case3 _ _ ih | case4 _ _ _ _ ih | case5 _ _ _ _ ih | case6 _ _ _ _ ih | case7 _ _ ih | case8 _ _ ih
  | case9 _ _ ih | case10 _ ih | case11 _ _ _ _ _ _ _ _ ih | case12 _ _ _ _ _ _ _ _ _ ih =>
    obtain ⟨m, found, rfl⟩ := further_eq_some h
    exact ih found
  | case13 broken c rest noLine noBlock _ _ noBlank _ =>
    cases h
    refine ⟨by simpa using noBlank, fun d more eq slash => ⟨fun second => ?_, fun second => ?_⟩⟩
    · exact noLine more slash (second ▸ eq)
    · exact noBlock more slash (second ▸ eq)

theorem blankLength_cons {c : Char} {rest : List Char} :
    Text.blankLength (c :: rest) = if Text.isBlank c then Text.blankLength rest + 1 else 0 := by
  unfold Text.blankLength
  rw [List.takeWhile_cons]
  split <;> simp

theorem isBlank_of_lt_blankLength {j : Nat} (less : j < Text.blankLength cs) :
    ∃ c, cs[j]? = some c ∧ Text.isBlank c = true := by
  induction cs generalizing j with
  | nil => cases less
  | cons c rest ih =>
    rw [blankLength_cons] at less
    split at less
    · next isBlank =>
      cases j with
      | zero => exact ⟨c, rfl, isBlank⟩
      | succ j => exact ih (Nat.lt_of_succ_lt_succ less)
    · cases less

/-- White space ends where something else stands. -/
theorem not_isBlank_blankLength {c : Char} (here : cs[Text.blankLength cs]? = some c) : Text.isBlank c = false := by
  induction cs with
  | nil => cases here
  | cons d rest ih =>
    rw [blankLength_cons] at here
    by_cases isBlank : Text.isBlank d = true
    · rw [if_pos isBlank, List.getElem?_cons_succ] at here
      exact ih here
    · rw [if_neg isBlank, List.getElem?_cons_zero] at here
      cases here
      exact Bool.eq_false_iff.mpr isBlank

theorem not_isBlank_of_mem {c : Char} (h : c ∈ ['/', '<', '>', '-', '=']) : Text.isBlank c = false := by
  simp only [List.mem_cons, List.not_mem_nil, or_false] at h
  rcases h with rfl | rfl | rfl | rfl | rfl <;> rfl

theorem blankLength_le_trivia (h : trivia .between broken cs = some (n, after)) : Text.blankLength cs ≤ n := by
  generalize eq : TriviaMode.between = m at h
  fun_induction trivia m broken cs generalizing n with
  | case1 | case3 | case4 | case5 | case6 => cases eq
  | case2 => exact Nat.zero_le _
  | case7 | case8 | case9 | case10 =>
    rw [blankLength_cons, not_isBlank_of_mem (by simp)]
    exact Nat.zero_le _
  | case11 broken c rest _ _ _ _ _ ih =>
    obtain ⟨m, found, rfl⟩ := further_eq_some h
    rw [blankLength_cons]
    split
    · exact Nat.succ_le_succ (ih rfl found)
    · exact Nat.zero_le _
  | case12 broken c rest _ _ _ _ noBlank | case13 broken c rest _ _ _ _ noBlank =>
    have solid : Text.isBlank c = false := by
      rw [Text.isScriptBlank, Bool.or_eq_true, not_or] at noBlank
      exact Bool.eq_false_iff.mpr noBlank.1
    rw [blankLength_cons, solid]
    exact Nat.zero_le _

/-- What stands before the tokens of a script begins with a number sign and is no more than one line. -/
theorem hashBang_line (less : k < hashBang cs) : cs[0]? = some '#' ∧ cs[k]? ≠ some '\n' := by
  unfold hashBang at less
  split at less
  · next rest =>
    refine ⟨rfl, fun newline => ?_⟩
    match k with
    | 0 | 1 => cases newline
    | k + 2 =>
      rw [List.getElem?_cons_succ, List.getElem?_cons_succ] at newline
      have inside : k < (rest.takeWhile fun c => !Text.isLineBreak c).length := by omega
      obtain ⟨more, eq⟩ := List.takeWhile_prefix (l := rest) fun c => !Text.isLineBreak c
      rw [← eq, List.getElem?_append_left inside] at newline
      have noBreak := List.mem_takeWhile_imp (List.mem_of_getElem? newline)
      exact absurd noBreak (by decide)
  · cases less

/-- A character that no comment begins with. -/
def IsPlain (c : Char) : Prop := c ∉ ['/', '<', '>', '-', '='] ∧ c.toNat ≠ 0xfeff

/-- White space is all that stands before a character that no comment begins with. -/
theorem trivia_eq_blankLength (h : trivia .between broken cs = some (n, after))
    (plain : ∀ c ∈ (cs.drop (Text.blankLength cs)).head?, IsPlain c) : n = Text.blankLength cs := by
  have marked {c : Char} {rest : List Char} (here : c ∈ ['/', '<', '>', '-', '=']) :
      ¬∀ d ∈ ((c :: rest).drop (Text.blankLength (c :: rest))).head?, IsPlain d := by
    intro plain
    rw [blankLength_cons, not_isBlank_of_mem here] at plain
    exact (plain c rfl).1 here
  generalize eq : TriviaMode.between = m at h
  fun_induction trivia m broken cs generalizing n with
  | case1 | case3 | case4 | case5 | case6 => cases eq
  | case2 =>
    cases h
    rfl
  | case7 | case8 | case9 | case10 => exact absurd plain (marked (by simp))
  | case11 broken c rest _ _ _ _ blank ih =>
    obtain ⟨m, found, rfl⟩ := further_eq_some h
    rw [blankLength_cons] at plain ⊢
    by_cases isBlank : Text.isBlank c = true
    · rw [if_pos isBlank] at plain ⊢
      rw [ih plain rfl found]
    · rw [if_neg isBlank] at plain
      have byteOrderMark : c.toNat = 0xfeff := by simpa [Text.isScriptBlank, isBlank] using blank
      exact absurd byteOrderMark (plain c rfl).2
  | case12 broken c rest _ _ _ _ _ mark =>
    refine absurd plain (marked ?_)
    simp only [Bool.and_eq_true, isMergeMark, Bool.or_eq_true] at mark
    rcases mark.2 with (mark | mark) | mark
    all_goals
      obtain ⟨more, same⟩ := List.isPrefixOf_iff_prefix.mp mark
      cases same
      decide
  | case13 broken c rest _ _ _ _ noBlank =>
    cases h
    have solid : Text.isBlank c = false := by
      rw [Text.isScriptBlank, Bool.or_eq_true, not_or] at noBlank
      exact Bool.eq_false_iff.mpr noBlank.1
    rw [blankLength_cons, solid]
    rfl

/-- Whether a comment that is open at the place `j` may end there, before the place `n`: at the end of a line or of a
block. -/
def EndsComment (cs : List Char) (j n : Nat) : Prop :=
  (j < n ∧ ∃ c, cs[j]? = some c ∧ Text.isLineBreak c = true) ∨
    (j + 1 < n ∧ cs[j]? = some '*' ∧ cs[j + 1]? = some '/')

theorem EndsComment.cons {c : Char} {j : Nat} (h : EndsComment cs j n) : EndsComment (c :: cs) (j + 1) (n + 1) := by
  simpa [EndsComment] using h

theorem EndsComment.of_drop {lo hi j : Nat} (h : EndsComment (cs.drop lo) j (hi - lo)) :
    EndsComment cs (lo + j) hi := by
  unfold EndsComment at h
  rw [List.getElem?_drop, List.getElem?_drop] at h
  rcases h with ⟨less, isBreak⟩ | ⟨less, star, slash⟩
  · exact Or.inl ⟨by omega, isBreak⟩
  · exact Or.inr ⟨by omega, star, slash⟩

theorem EndsComment.of_le {j l : Nat} (h : EndsComment cs j n) (le : n ≤ l) : EndsComment cs j l := by
  rcases h with ⟨less, isBreak⟩ | ⟨less, marks⟩
  · exact Or.inl ⟨by omega, isBreak⟩
  · exact Or.inr ⟨by omega, marks⟩

theorem line_ends (h : trivia .line broken cs = some (n, after)) :
    n = cs.length ∨ ∃ j, EndsComment cs j n := by
  generalize eq : TriviaMode.line = mode at h
  fun_induction trivia mode broken cs generalizing n with
  | case1 => cases h
  | case2 =>
    cases h
    exact Or.inl rfl
  | case5 broken c rest isBreak ih =>
    obtain ⟨m, found, rfl⟩ := further_eq_some h
    exact Or.inr ⟨0, Or.inl ⟨Nat.succ_pos m, c, rfl, isBreak⟩⟩
  | case6 broken c rest noBreak ih =>
    obtain ⟨m, found, rfl⟩ := further_eq_some h
    rcases ih rfl found with whole | ⟨j, ends⟩
    · exact Or.inl (congrArg (· + 1) whole)
    · exact Or.inr ⟨j + 1, ends.cons⟩
  | case3 | case4 | case7 | case8 | case9 | case10 | case11 | case12 | case13 => cases eq

theorem block_ends (h : trivia .block broken cs = some (n, after)) : ∃ j, EndsComment cs j n := by
  generalize eq : TriviaMode.block = mode at h
  fun_induction trivia mode broken cs generalizing n with
  | case1 => cases h
  | case2 _ _ other => exact absurd eq.symm other
  | case3 broken rest ih =>
    obtain ⟨m, found, rfl⟩ := further_eq_some h
    exact ⟨0, Or.inr ⟨by omega, rfl, rfl⟩⟩
  | case4 broken c rest open_ ih =>
    obtain ⟨m, found, rfl⟩ := further_eq_some h
    obtain ⟨j, ends⟩ := ih rfl found
    exact ⟨j + 1, ends.cons⟩
  | case5 | case6 | case7 | case8 | case9 | case10 | case11 | case12 | case13 => cases eq

/-- Where two slashes stand between tokens, with no star before them. -/
structure SlashesAt (cs : List Char) (k : Nat) : Prop where
  first : cs[k]? = some '/'
  second : cs[k + 1]? = some '/'
  noStar : ∀ j, k = j + 1 → cs[j]? ≠ some '*'

theorem SlashesAt.tail {c : Char} (slashes : SlashesAt (c :: cs) (k + 1)) : SlashesAt cs k where
  first := by simpa using slashes.first
  second := by simpa using slashes.second
  noStar j same := by simpa using slashes.noStar (j + 1) (by omega)

/-- White space and comments behind a place go on to the end of the text, or a comment may end there. -/
def GoesOn (cs : List Char) (k n : Nat) : Prop := n = cs.length ∨ ∃ j, k ≤ j ∧ EndsComment cs j n

theorem GoesOn.cons {c : Char} (h : GoesOn cs k n) : GoesOn (c :: cs) (k + 1) (n + 1) := by
  rcases h with whole | ⟨j, behind, ends⟩
  · exact Or.inl (congrArg (· + 1) whole)
  · exact Or.inr ⟨j + 1, Nat.succ_le_succ behind, ends.cons⟩

theorem GoesOn.of_le {l : Nat} (h : GoesOn cs k n) (le : l ≤ k) : GoesOn cs l n := by
  rcases h with whole | ⟨j, behind, ends⟩
  · exact Or.inl whole
  · exact Or.inr ⟨j, Nat.le_trans le behind, ends⟩

theorem goesOn_line (h : trivia .line broken cs = some (n, after)) : GoesOn cs 0 n := by
  rcases line_ends h with whole | ⟨j, ends⟩
  · exact Or.inl whole
  · exact Or.inr ⟨j, Nat.zero_le j, ends⟩

/-- Two slashes between tokens are part of a comment. -/
theorem goesOn_slashes (h : trivia mode broken cs = some (n, after)) (less : k < n) (slashes : SlashesAt cs k) :
    GoesOn cs k n := by
  fun_induction trivia mode broken cs generalizing n k with
  | case1 => cases h
  | case2 | case13 =>
    cases h
    omega
  | case3 broken rest ih =>
    obtain ⟨m, found, rfl⟩ := further_eq_some h
    match k with
    | 0 => exact absurd slashes.first (by simp)
    | 1 => exact absurd rfl (slashes.noStar 0 rfl)
    | k + 2 => exact (ih found (by omega) slashes.tail.tail).cons.cons
  | case4 broken c rest open_ ih =>
    obtain ⟨m, found, rfl⟩ := further_eq_some h
    match k with
    | 0 =>
      obtain ⟨j, ends⟩ := block_ends found
      exact Or.inr ⟨j + 1, Nat.zero_le _, ends.cons⟩
    | k + 1 => exact (ih found (by omega) slashes.tail).cons
  | case5 broken c rest isBreak ih =>
    obtain ⟨m, found, rfl⟩ := further_eq_some h
    match k with
    | 0 =>
      obtain rfl : c = '/' := by simpa using slashes.first
      exact absurd isBreak (by decide)
    | k + 1 => exact (ih found (by omega) slashes.tail).cons
  | case6 broken c rest noBreak ih =>
    obtain ⟨m, found, rfl⟩ := further_eq_some h
    match k with
    | 0 => exact (goesOn_line found).cons.of_le (Nat.zero_le _)
    | k + 1 => exact (ih found (by omega) slashes.tail).cons
  | case7 broken rest ih =>
    obtain ⟨m, found, rfl⟩ := further_eq_some h
    match k with
    | 0 | 1 => exact (goesOn_line found).cons.cons.of_le (by omega)
    | k + 2 => exact (ih found (by omega) slashes.tail.tail).cons.cons
  | case8 broken rest ih =>
    obtain ⟨m, found, rfl⟩ := further_eq_some h
    match k with
    | 0 => exact absurd slashes.second (by simp)
    | 1 => exact absurd slashes.first (by simp)
    | k + 2 => exact (ih found (by omega) slashes.tail.tail).cons.cons
  | case9 broken rest ih =>
    obtain ⟨m, found, rfl⟩ := further_eq_some h
    match k with
    | 0 | 1 | 2 | 3 => exact absurd slashes.first (by simp)
    | k + 4 => exact (ih found (by omega) slashes.tail.tail.tail.tail).cons.cons.cons.cons
  | case10 rest ih =>
    obtain ⟨m, found, rfl⟩ := further_eq_some h
    match k with
    | 0 | 1 | 2 => exact absurd slashes.first (by simp)
    | k + 3 => exact (ih found (by omega) slashes.tail.tail.tail).cons.cons.cons
  | case11 broken c rest _ _ _ _ blank ih =>
    obtain ⟨m, found, rfl⟩ := further_eq_some h
    match k with
    | 0 =>
      obtain rfl : c = '/' := by simpa using slashes.first
      exact absurd blank (by decide)
    | k + 1 => exact (ih found (by omega) slashes.tail).cons
  | case12 broken c rest noLine _ _ _ _ _ ih =>
    obtain ⟨m, found, rfl⟩ := further_eq_some h
    match k with
    | 0 =>
      obtain rfl : c = '/' := by simpa using slashes.first
      obtain ⟨more, eq⟩ : ∃ more, rest = '/' :: more := by
        cases rest with
        | nil => exact absurd slashes.second (by simp)
        | cons d more => exact ⟨more, by simpa using slashes.second⟩
      exact (noLine more rfl eq).elim
    | k + 1 => exact (ih found (by omega) slashes.tail).cons

end ModuleBundler.Script.Lexer
