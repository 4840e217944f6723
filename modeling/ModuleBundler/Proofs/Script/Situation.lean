import Mathlib.Data.List.Chain
import ModuleBundler.Script.Lexer.Situation

namespace ModuleBundler.Script.Lexer.Situation

theorem previous_after (s : Situation) (t : Token) : (s.after t).previous = some t.lexeme := rfl

/-- How a token changes the open regions: not at all, or it opens one, goes into a template or out of it, or closes
something. -/
inductive Turns (s : Situation) : Lexeme → List Region → Prop
  | stays (lexeme : Lexeme) : Turns s lexeme s.regions
  | opens (lexeme : Lexeme) (region : Region) : region ≠ .template → Turns s lexeme (region :: s.regions)
  | enters : s.inTemplate = false → Turns s (.mark .backtick) (.template :: s.regions)
  | leaves : s.inTemplate = true → Turns s (.mark .backtick) (s.regions.drop 1)
  | closes {m : Mark} : m = .parenR ∨ m = .braceR → Turns s (.mark m) s.close.1

/-- What may stand right before a piece of a template. -/
def LeadsIn (lexeme : Lexeme) : Prop :=
  lexeme = .mark .backtick ∨ lexeme = .mark .parenR ∨ lexeme = .mark .braceR

/-- A template is open above a substitution only. -/
def Nested (s : Situation) : Prop :=
  s.regions.IsChain fun inner outer => outer = .template → inner = .substitution

section Turns

variable {s : Situation} {lexeme : Lexeme} {afterBreak : Bool} {regions : List Region}

theorem turns_advance : Turns s lexeme (s.advance lexeme afterBreak).1 := by
  unfold advance
  simp only
  split
  · exact .stays _
  · split
    · exact .closes (Or.inl rfl)
    · exact .closes (Or.inr rfl)
    · split
      · exact .opens _ _ (by decide)
      · exact .stays _
    · split <;> exact .stays _
    · split <;> exact .opens _ _ (by decide)
    · exact .opens _ _ (by decide)
    · split <;> exact .opens _ _ (by decide)
    · exact .stays _
    · exact .stays _
    · split
      · next inside => exact .leaves inside
      · next outside => exact .enters (by simpa using outside)
    · exact .stays _
    · exact .stays _

theorem turns_after (t : Token) : Turns s t.lexeme (s.after t).regions := turns_advance

theorem head_ne_template (outside : s.inTemplate = false) : s.regions.head? ≠ some .template := by
  simpa [inTemplate] using outside

theorem close_suffix : s.close.1 <:+ s.regions := by
  unfold close
  split
  · next none => exact none ▸ List.suffix_rfl
  · next only => exact only ▸ List.suffix_rfl
  · next rest eq => exact eq ▸ (List.suffix_cons _ _).trans (List.suffix_cons _ _)
  · next rest eq => exact eq ▸ List.suffix_cons _ _
  · next rest _ eq => exact eq ▸ List.suffix_cons _ _
  · next rest _ eq => exact eq ▸ List.suffix_cons _ _
  · next rest _ _ _ eq => exact eq ▸ List.suffix_cons _ _

theorem Nested.of_turns (nested : s.Nested) (outside : s.inTemplate = false) (turns : Turns s lexeme regions) :
    regions.IsChain fun inner outer => outer = .template → inner = .substitution := by
  have top : ∀ outer ∈ s.regions.head?, outer ≠ .template := by
    rintro outer here rfl
    exact head_ne_template outside here
  cases turns with
  | stays => exact nested
  | opens _ region => exact nested.cons fun outer here same => absurd same (top outer here)
  | enters => exact nested.cons fun outer here same => absurd same (top outer here)
  | leaves => exact nested.drop 1
  | closes => exact nested.suffix close_suffix

/-- Outside of templates, every token leaves the templates nested. -/
theorem Nested.after (nested : s.Nested) (outside : s.inTemplate = false) (t : Token) : (s.after t).Nested :=
  nested.of_turns outside (turns_after t)

theorem leadsIn_of_inTemplate (outside : s.inTemplate = false) (turns : Turns s lexeme regions)
    (inside : regions.head? = some .template) : LeadsIn lexeme := by
  cases turns with
  | stays => exact absurd inside (head_ne_template outside)
  | opens _ region other => exact absurd (Option.some.inj inside) other
  | enters => exact Or.inl rfl
  | leaves open_ =>
    rw [outside] at open_
    cases open_
  | closes bracket => exact Or.inr (bracket.imp (congrArg _) (congrArg _))

theorem outside_after {t : Token} (outside : s.inTemplate = false) (noLead : ¬LeadsIn t.lexeme) :
    (s.after t).inTemplate = false := by
  by_contra inside
  exact noLead (leadsIn_of_inTemplate outside (turns_after t) (by simpa [inTemplate] using inside))

/-- A piece of a template changes nothing. -/
theorem after_chunk_regions {t : Token} (isChunk : t.lexeme.isChunk = true) : (s.after t).regions = s.regions := by
  obtain ⟨lexeme, start, stop, afterBreak⟩ := t
  cases lexeme with
  | chunk spelling => simp [after, advance, Lexeme.isKeyword]
  | keyword | name | mark | number | text | regex => cases isChunk

/-- What ends a piece of a template leads out of the template. -/
theorem after_closer {t : Token} (nested : s.Nested) (inside : s.inTemplate = true)
    (closes : t.lexeme = .mark .backtick ∨ t.lexeme = .mark .dollarBrace) :
    (s.after t).Nested ∧ (s.after t).inTemplate = false := by
  obtain ⟨lexeme, start, stop, afterBreak⟩ := t
  obtain ⟨open_, previous, operandNext, previousAfterBreak⟩ := s
  cases open_ with
  | nil => cases inside
  | cons region rest =>
    obtain rfl : region = .template := by simpa [inTemplate] using inside
    rcases closes with rfl | rfl
    · have regions : ((Situation.mk (.template :: rest) previous operandNext previousAfterBreak).after
          ⟨.mark .backtick, start, stop, afterBreak⟩).regions = rest := by
        simp [after, advance, Lexeme.isKeyword, inTemplate]
      rw [Nested, inTemplate, regions]
      refine ⟨nested.tail, decide_eq_false fun head => ?_⟩
      exact absurd (nested.rel_head? head rfl) (by decide)
    · have regions : ((Situation.mk (.template :: rest) previous operandNext previousAfterBreak).after
          ⟨.mark .dollarBrace, start, stop, afterBreak⟩).regions = .substitution :: .template :: rest := by
        simp [after, advance, Lexeme.isKeyword]
      rw [Nested, inTemplate, regions]
      exact ⟨List.isChain_cons_cons.mpr ⟨fun _ => rfl, nested⟩, rfl⟩

theorem nested_initial : initial.Nested := List.isChain_singleton _

end Turns

section Parens

variable {s : Situation} {t : Token} {rest : List Region}

/-- A row of parentheses that holds neither brackets nor words that open anything. -/
def Passes (lexeme : Lexeme) : Prop :=
  lexeme = .mark .ellipsis ∨ lexeme = .mark .comma ∨ lexeme = .name "arguments"

theorem after_passing (passes : Passes t.lexeme) : (s.after t).regions = s.regions := by
  obtain ⟨lexeme, start, stop, afterBreak⟩ := t
  rcases passes with rfl | rfl | rfl <;> simp [after, advance, Lexeme.isKeyword]

/-- The region between parentheses. -/
def IsParens (region : Region) : Prop := region = .parens ∨ ∃ loop, region = .headParens loop

theorem after_parenL (opens : t.lexeme = .mark .parenL) :
    ∃ region, IsParens region ∧ (s.after t).regions = region :: s.regions := by
  obtain ⟨lexeme, start, stop, afterBreak⟩ := t
  obtain rfl := opens
  simp only [after, advance, Lexeme.isKeyword, Bool.and_false, Bool.false_eq_true, if_false]
  split
  · exact ⟨_, Or.inr ⟨_, rfl⟩, rfl⟩
  · exact ⟨_, Or.inr ⟨_, rfl⟩, rfl⟩
  · exact ⟨_, Or.inr ⟨_, rfl⟩, rfl⟩
  · exact ⟨_, Or.inr ⟨_, rfl⟩, rfl⟩
  · exact ⟨_, Or.inl rfl, rfl⟩

/-- Behind parentheses the lexer stands where it stood before them, or the parentheses are all that was open. -/
theorem after_parenR {region : Region} (isParens : IsParens region) (inside : s.regions = region :: rest)
    (closes : t.lexeme = .mark .parenR) : (s.after t).regions = rest ∨ (s.after t).regions = [region] := by
  obtain ⟨lexeme, start, stop, afterBreak⟩ := t
  obtain rfl := closes
  have regions : (s.after ⟨.mark .parenR, start, stop, afterBreak⟩).regions = s.close.1 := by
    simp [after, advance, Lexeme.isKeyword]
  rw [regions, close, inside]
  rcases isParens with rfl | ⟨loop, rfl⟩
  all_goals
    cases rest with
    | nil => exact Or.inr rfl
    | cons outer rest => exact Or.inl (by cases outer <;> rfl)

end Parens

end ModuleBundler.Script.Lexer.Situation
