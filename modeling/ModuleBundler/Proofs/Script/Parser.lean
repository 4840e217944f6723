import ModuleBundler.Script.Module

/-!
What is known of a run of a parser that has found something.

One lemma for each way to make a parser tells what the run consists of, so that a run of a rule of the grammar is
taken apart in the order of its steps. What holds of every run is proved by induction on the parser.
-/

namespace ModuleBundler.Script

namespace State

theorem isFresh_iff (s : State) : s.isFresh = true ↔ s.row = [] := by
  rw [isFresh, List.all_eq_true, row, Tree.leavesOf_eq_flatMap, List.flatMap_eq_nil_iff]
  simp

/-- How a parser may change a state: some of the tokens to come have been moved into the row. -/
structure Moves (s t : State) : Prop where
  moved : ∃ tokens, s.rest = tokens ++ t.rest ∧ t.row = s.row ++ tokens
  /-- A row does not begin with a piece of a template. -/
  begun : s.row = [] → ∀ first ∈ t.row.head?, first.lexeme.isChunk = false
  headed : Tree.areHeaded s.built = true → Tree.areHeaded t.built = true

theorem Moves.refl (s : State) : Moves s s where
  moved := ⟨[], rfl, (List.append_nil _).symm⟩
  begun none first here := by
    rw [none] at here
    cases here
  headed h := h

theorem Moves.trans {s t u : State} (first : Moves s t) (second : Moves t u) : Moves s u where
  moved := by
    obtain ⟨some, rest, row⟩ := first.moved
    obtain ⟨more, rest', row'⟩ := second.moved
    refine ⟨some ++ more, ?_, ?_⟩
    · rw [rest, rest', List.append_assoc]
    · rw [row', row, List.append_assoc]
  begun fresh token here := by
    obtain ⟨more, _, row⟩ := second.moved
    cases eq : t.row with
    | nil => exact second.begun eq token here
    | cons head tail =>
      rw [row, eq] at here
      exact first.begun fresh token (eq ▸ here)
  headed h := second.headed (first.headed h)

/-- What is moved into a row of its own moves as one tree into the row that was there. -/
theorem Moves.asNode {built : List Tree} {rest : List Token} {t : State} {kind : Kind} (inner : Moves ⟨[], rest⟩ t)
    (other : kind ≠ .superCall) : Moves ⟨built, rest⟩ ⟨.node kind t.built.reverse :: built, t.rest⟩ where
  moved := by
    obtain ⟨tokens, eq, row⟩ := inner.moved
    refine ⟨tokens, eq, ?_⟩
    simp only [State.row, List.reverse_nil, Tree.leavesOf, List.nil_append] at row
    simp [State.row, Tree.leavesOf_append, Tree.leavesOf, Tree.leaves, row]
  begun fresh token here := by
    refine inner.begun rfl token ?_
    simp only [State.row] at fresh
    simpa [State.row, Tree.leavesOf_append, Tree.leavesOf, Tree.leaves, fresh] using here
  headed h := by
    have kept := inner.headed rfl
    simp [Tree.areHeaded, Tree.isHeaded, Tree.areHeaded_reverse, other, kept, h]

/-- What is moved behind the newest tree becomes one tree with it. -/
theorem Moves.asWrap {newest : Tree} {older : List Tree} {rest : List Token} {t : State} {kind : Kind}
    (inner : Moves ⟨[newest], rest⟩ t) (other : kind ≠ .superCall) :
    Moves ⟨newest :: older, rest⟩ ⟨.node kind t.built.reverse :: older, t.rest⟩ where
  moved := by
    obtain ⟨tokens, eq, row⟩ := inner.moved
    refine ⟨tokens, eq, ?_⟩
    simp only [State.row, List.reverse_singleton, Tree.leavesOf, List.append_nil] at row
    simp [State.row, Tree.leavesOf_append, Tree.leavesOf, Tree.leaves, row]
  begun fresh token here := by
    simp only [State.row, List.reverse_cons, Tree.leavesOf_append, List.append_eq_nil_iff] at fresh
    refine inner.begun fresh.2 token ?_
    simpa [State.row, Tree.leavesOf_append, Tree.leavesOf, Tree.leaves, fresh.1] using here
  headed h := by
    rw [Tree.areHeaded, Bool.and_eq_true] at h
    have kept := inner.headed (by simpa [Tree.areHeaded] using h.1)
    simp [Tree.areHeaded, Tree.isHeaded, Tree.areHeaded_reverse, other, kept, h.2]

/-- What is moved into a row of its own becomes one tree with the newest token. -/
theorem Moves.asSuperCall {token : Token} {older : List Tree} {rest : List Token} {t : State}
    (inner : Moves ⟨[], rest⟩ t) :
    Moves ⟨.leaf token :: older, rest⟩ ⟨.node .superCall (.leaf token :: t.built.reverse) :: older, t.rest⟩ where
  moved := by
    obtain ⟨tokens, eq, row⟩ := inner.moved
    refine ⟨tokens, eq, ?_⟩
    simp only [State.row, List.reverse_nil, Tree.leavesOf, List.nil_append] at row
    simp [State.row, Tree.leavesOf_append, Tree.leavesOf, Tree.leaves, row]
  begun fresh := by simp [State.row, Tree.leavesOf_append, Tree.leavesOf, Tree.leaves] at fresh
  headed h := by
    rw [Tree.areHeaded, Bool.and_eq_true] at h
    have kept := inner.headed rfl
    simp [Tree.areHeaded, Tree.isHeaded, Tree.areHeaded_reverse, kept, h.2]

theorem row_of_leaf {s t : State} {token : Token} (built : t.built = .leaf token :: s.built) :
    t.row = s.row ++ [token] := by
  rw [row, built, row, List.reverse_cons, Tree.leavesOf_append, Tree.leavesOf, Tree.leaves,
    Tree.leavesOf, List.append_nil]

end State

/-- Whether the rules that may be called do no more to a state than to move tokens. -/
def Reader.Moves (r : Reader) : Prop :=
  ∀ (α : Type) (rule : Rule α) (s : State) (a : α) (t : State), r.call rule s = .found a t → s.Moves t

theorem Outcome.andThen_eq_found {α β : Type} {outcome : Outcome α} {f : α → State → Outcome β} {b : β} {u : State}
    (h : outcome.andThen f = .found b u) : ∃ a t, outcome = .found a t ∧ f a t = .found b u := by
  cases outcome with
  | found a t => exact ⟨a, t, rfl, h⟩
  | refused | unknown => cases h

namespace Parser

variable {α β : Type} {r : Reader} {s t u : State} {a : α}

theorem bind_run {p : Parser α} {f : α → Parser β} {b : β} (h : (p >>= f).run r s = .found b u) :
    ∃ a t, p.run r s = .found a t ∧ (f a).run r t = .found b u := Outcome.andThen_eq_found h

theorem run_bind (p : Parser α) (f : α → Parser β) :
    (p >>= f).run r s = (p.run r s).andThen fun a t => (f a).run r t := rfl

theorem pure_run {b : α} (h : (pure a : Parser α).run r s = .found b t) : b = a ∧ s = t := by
  cases h
  exact ⟨rfl, rfl⟩

theorem peek_run {place : Nat} {b : Option Glimpse} (h : (peek place).run r s = .found b t) :
    b = s.glimpse? place ∧ s = t := by
  rw [run] at h
  split at h
  · cases h
  · cases h
    exact ⟨rfl, rfl⟩

theorem node_run {kind : Kind} {p : Parser α} {other : kind ≠ .superCall}
    (h : (node kind p other).run r s = .found a u) :
    ∃ t, p.run r ⟨[], s.rest⟩ = .found a t ∧ u = ⟨.node kind t.built.reverse :: s.built, t.rest⟩ := by
  obtain ⟨b, t, inner, same⟩ := Outcome.andThen_eq_found h
  cases same
  exact ⟨t, inner, rfl⟩

theorem advance_run {x : Unit} (h : advance.run r s = .found x t) :
    ∃ token, s.rest = token :: t.rest ∧ t.built = .leaf token :: s.built := by
  rw [run] at h
  split at h
  · split at h <;> cases h
  · next token rest eq =>
    split at h
    · cases h
    · cases h
      exact ⟨token, eq, rfl⟩

theorem headIs_run {p : Lexeme → Bool} {b : Bool} (h : (headIs p).run r s = .found b t) :
    s = t ∧ (b = true → ∃ token, s.rest.head? = some token ∧ p token.lexeme = true) := by
  obtain ⟨found, _, peeked, last⟩ := bind_run h
  obtain ⟨rfl, rfl⟩ := peek_run peeked
  obtain ⟨rfl, rfl⟩ := pure_run last
  refine ⟨rfl, fun fits => ?_⟩
  rcases s with ⟨built, _ | ⟨token, rest⟩⟩
  · cases fits
  · exact ⟨token, rfl, fits⟩

theorem atEnd_run {b : Bool} (h : atEnd.run r s = .found b t) : s = t ∧ (b = true → s.rest = []) := by
  obtain ⟨found, _, peeked, last⟩ := bind_run h
  obtain ⟨rfl, rfl⟩ := peek_run peeked
  obtain ⟨rfl, rfl⟩ := pure_run last
  refine ⟨rfl, fun none => ?_⟩
  rcases s with ⟨built, _ | ⟨token, rest⟩⟩
  · rfl
  · cases none

theorem nextTwo_run {p q : Glimpse → Bool} {b : Bool} (h : (nextTwo p q).run r s = .found b t) : s = t := by
  obtain ⟨_, _, first, h⟩ := bind_run h
  obtain ⟨_, rfl⟩ := peek_run first
  split at h
  · obtain ⟨_, _, second, last⟩ := bind_run h
    obtain ⟨_, rfl⟩ := peek_run second
    exact (pure_run last).2
  · exact (pure_run h).2

theorem expect_run {p : Lexeme → Bool} {x : Unit} (h : (expect p).run r s = .found x t) :
    ∃ token, p token.lexeme = true ∧ s.rest = token :: t.rest ∧ t.built = .leaf token :: s.built := by
  obtain ⟨b, u, test, then_⟩ := bind_run h
  obtain ⟨rfl, found⟩ := headIs_run test
  split at then_
  · next yes =>
    obtain ⟨token, head, fits⟩ := found yes
    obtain ⟨moved, rest, built⟩ := advance_run then_
    rw [rest] at head
    cases head
    exact ⟨token, fits, rest, built⟩
  · cases then_

/-- A parser that may take a token takes one that fits, or leaves everything as it is. -/
theorem eat_run {p : Lexeme → Bool} {b : Bool} (h : (eat p).run r s = .found b t) :
    (b = true ∧ ∃ token, p token.lexeme = true ∧ s.rest = token :: t.rest ∧ t.built = .leaf token :: s.built) ∨
      (b = false ∧ s = t) := by
  obtain ⟨c, u, test, then_⟩ := bind_run h
  obtain ⟨rfl, found⟩ := headIs_run test
  split at then_
  · next yes =>
    obtain ⟨token, head, fits⟩ := found yes
    obtain ⟨x, v, first, last⟩ := bind_run then_
    obtain ⟨moved, rest, built⟩ := advance_run first
    obtain ⟨rfl, rfl⟩ := pure_run last
    rw [rest] at head
    cases head
    exact Or.inl ⟨rfl, token, fits, rest, built⟩
  · exact Or.inr (pure_run then_)

/-- An attempt that finds nothing leaves everything as it is. -/
theorem attempt_run {p : Parser α} (h : p.attempt.run r s = .found none t) : s = t := by
  unfold attempt at h
  rw [run] at h
  cases first : (do return some (← p) : Parser (Option α)).run r s with
  | found b u =>
    rw [first] at h
    cases h
    obtain ⟨a, v, _, last⟩ := bind_run first
    exact absurd (pure_run last).1 (by simp)
  | refused =>
    rw [first] at h
    exact (pure_run h).2
  | unknown =>
    rw [first] at h
    cases h

theorem guardThat_run {b : Bool} {x : Unit} (h : (guardThat b).run r s = .found x t) : s = t := by
  unfold guardThat at h
  split at h
  · exact (pure_run h).2
  · cases h

theorem expectText_run {value : String} (h : expectText.run r s = .found value t) :
    ∃ token, token.lexeme = .text value ∧ s.rest = token :: t.rest ∧ t.built = .leaf token :: s.built := by
  obtain ⟨next, u, lexeme, h⟩ := bind_run h
  obtain ⟨found, _, peeked, same⟩ := bind_run lexeme
  obtain ⟨rfl, rfl⟩ := peek_run peeked
  obtain ⟨rfl, rfl⟩ := pure_run same
  split at h
  · next value' isText =>
    obtain ⟨_, _, first, last⟩ := bind_run h
    obtain ⟨rfl, rfl⟩ := pure_run last
    obtain ⟨token, rest, built⟩ := advance_run first
    refine ⟨token, ?_, rest, built⟩
    simpa [State.glimpse?, rest] using isText
  · cases h

theorem atStatementEnd_run {b : Bool} (h : atStatementEnd.run r s = .found b t) : s = t := by
  obtain ⟨found, _, peeked, last⟩ := bind_run h
  obtain ⟨rfl, rfl⟩ := peek_run peeked
  split at last <;> exact (pure_run last).2

/-- A statement ends with a semicolon or without. -/
theorem expectStatementEnd_run {x : Unit} (h : expectStatementEnd.run r s = .found x t) :
    ∃ semicolon : Option Token, t.row = s.row ++ semicolon.toList ∧ ∀ t ∈ semicolon, t.lexeme = .mark .semicolon := by
  obtain ⟨_, _, ends, last⟩ := bind_run h
  obtain rfl := guardThat_run last
  obtain ⟨_, _, test, ends⟩ := bind_run ends
  obtain ⟨rfl, token, fits, _, built⟩ | ⟨rfl, rfl⟩ := eat_run test
  · obtain ⟨_, rfl⟩ := pure_run ends
    refine ⟨some token, State.row_of_leaf built, fun t same => ?_⟩
    cases same
    simpa using fits
  · obtain rfl := atStatementEnd_run ends
    exact ⟨none, (List.append_nil _).symm, nofun⟩

/-- What each round of a loop keeps until the last round, and what the last one makes of it. -/
theorem rounds_found {step : α → State → Outcome (Option α)} {number : Nat} {b : α} {P Q : α → State → Prop}
    (goes : ∀ a s b t, step a s = .found (some b) t → P a s → P b t)
    (ends : ∀ a s t, step a s = .found none t → P a s → Q a t)
    (h : rounds step number a s = .found b t) (first : P a s) : Q b t := by
  induction number generalizing a s with
  | zero => cases h
  | succ number ih =>
    obtain ⟨next, u, round, h⟩ := Outcome.andThen_eq_found h
    cases next with
    | none =>
      cases h
      exact ends _ _ _ round first
    | some c => exact ih h (goes _ _ _ _ round first)

theorem iterate_run {step : α → Parser (Option α)} {b : α} {P Q : α → State → Prop}
    (goes : ∀ a s b t, (step a).run r s = .found (some b) t → P a s → P b t)
    (ends : ∀ a s t, (step a).run r s = .found none t → P a s → Q a t)
    (h : (iterate a step).run r s = .found b t) (first : P a s) : Q b t := rounds_found goes ends h first

/-- Whether every answer of a parser is as `P` says. -/
def Answers (r : Reader) (p : Parser α) (P : α → Prop) : Prop := ∀ s a t, p.run r s = .found a t → P a

theorem Answers.pure {P : α → Prop} (holds : P a) : Answers r (Pure.pure a) P := fun _ _ _ h => (pure_run h).1 ▸ holds

theorem Answers.imp {p : Parser α} {P Q : α → Prop} (answers : Answers r p P) (implies : ∀ a, P a → Q a) :
    Answers r p Q :=
  fun s a t h => implies a (answers s a t h)

theorem Answers.bind {p : Parser α} {f : α → Parser β} {P : β → Prop} (holds : ∀ a, Answers r (f a) P) :
    Answers r (p >>= f) P := by
  intro s b u h
  obtain ⟨a, t, _, last⟩ := bind_run h
  exact holds a t b u last

theorem Answers.ite {b : Bool} {p q : Parser α} {P : α → Prop} (first : Answers r p P) (second : Answers r q P) :
    Answers r (if b then p else q) P := by
  split
  · exact first
  · exact second

theorem moves_advance {x : Unit} (h : advance.run r s = .found x t) : s.Moves t := by
  obtain ⟨token, eq, built⟩ := advance_run h
  refine ⟨⟨[token], eq, State.row_of_leaf built⟩, fun fresh first here => ?_, fun headed => ?_⟩
  · have noChunk : token.lexeme.isChunk = false := by
      rw [run, eq] at h
      have isFresh := s.isFresh_iff.mpr fresh
      cases isChunk : token.lexeme.isChunk with
      | false => rfl
      | true => simp [isChunk, isFresh] at h
    rw [State.row_of_leaf built, fresh] at here
    cases here
    exact noChunk
  · rw [built]
    simpa [Tree.areHeaded, Tree.isHeaded] using headed

/-- Whatever a parser does, it moves tokens. -/
theorem moves_run (calls : r.Moves) (p : Parser α) (h : p.run r s = .found a t) : s.Moves t := by
  induction p generalizing s t with
  | pure b =>
    cases h
    exact .refl s
  | bind p f ihP ihF =>
    obtain ⟨b, u, first, second⟩ := Outcome.andThen_eq_found h
    exact (ihP first).trans (ihF b second)
  | fail => cases h
  | orElse p q ihP ihQ =>
    rw [run] at h
    cases first : p.run r s with
    | found b u => exact ihP (first.trans (first ▸ h))
    | refused => exact ihQ (first ▸ h)
    | unknown =>
      rw [first] at h
      cases h
  | peek place =>
    obtain ⟨_, rfl⟩ := peek_run h
    exact .refl s
  | ahead p ih =>
    rw [run] at h
    split at h
    · cases h
      exact .refl s
    · cases h
      exact .refl s
    · cases h
  | advance => exact moves_advance h
  | node kind p other ih =>
    obtain ⟨u, inner, rfl⟩ := node_run h
    exact (ih inner).asNode other
  | wrap kind p other ih =>
    rcases s with ⟨_ | ⟨newest, older⟩, rest⟩
    · cases h
    · obtain ⟨b, u, inner, same⟩ := Outcome.andThen_eq_found h
      cases same
      exact (ih inner).asWrap other
  | superCall p ih =>
    rcases s with ⟨_ | ⟨_ | ⟨inside, trees⟩, older⟩, rest⟩
    · cases h
    · obtain ⟨b, u, inner, same⟩ := Outcome.andThen_eq_found h
      cases same
      exact (ih inner).asSuperCall
    · cases h
  | iterate b step ih =>
    refine rounds_found (P := fun _ u => s.Moves u) (Q := fun _ u => s.Moves u) ?_ ?_ h (.refl s)
    · exact fun b u c v round moved => moved.trans (ih b round)
    · exact fun b u v round moved => moved.trans (ih b round)
  | call rule => exact calls _ rule s a t h

end Parser

section Grammar

variable {α : Type} {isOpen : Bool} {depth : Nat} {s t : State} {a : α} {p : Parser α}

theorem Grammar.moves_reader (isOpen : Bool) (depth : Nat) : (reader isOpen depth).Moves := by
  induction depth with
  | zero =>
    intro α rule s a t h
    cases h
  | succ depth ih => exact fun α rule s a t h => Parser.moves_run ih (body rule) h

theorem Parser.moves_of_run (h : p.run (Grammar.reader isOpen depth) s = .found a t) : s.Moves t :=
  moves_run (Grammar.moves_reader isOpen depth) p h

/-- What is in the row stays in front. -/
theorem Parser.row_prefix (h : p.run (Grammar.reader isOpen depth) s = .found a t) : s.row <+: t.row := by
  obtain ⟨tokens, _, row⟩ := (Parser.moves_of_run h).moved
  exact ⟨tokens, row.symm⟩

end Grammar

end ModuleBundler.Script
