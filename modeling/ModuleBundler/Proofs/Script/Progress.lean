import ModuleBundler.Proofs.Script.Wiring

namespace ModuleBundler.Script

namespace Parser

variable {α β : Type} {r : Reader} {isOpen : Bool} {depth : Nat} {s t : State} {a : α}

theorem orElse_run {p q : Parser α} (h : (orElse p q).run r s = .found a t) :
    p.run r s = .found a t ∨ q.run r s = .found a t := by
  rw [run] at h
  cases first : p.run r s with
  | found b u =>
    rw [first] at h
    exact Or.inl h
  | refused =>
    rw [first] at h
    exact Or.inr h
  | unknown =>
    rw [first] at h
    cases h

theorem guardThat_holds {b : Bool} {x : Unit} (h : (guardThat b).run r s = .found x t) : b = true := by
  unfold guardThat at h
  split at h
  · next holds => exact holds
  · cases h

/-- Whether a parser moves at least one token if it finds something. -/
def Progresses (r : Reader) (p : Parser α) : Prop := ∀ s a t, p.run r s = .found a t → t.rest.length < s.rest.length

theorem rest_le {p : Parser α} (h : p.run (Grammar.reader isOpen depth) s = .found a t) :
    t.rest.length ≤ s.rest.length := by
  obtain ⟨tokens, rest, _⟩ := (moves_of_run h).moved
  simp [rest]

theorem progresses_advance : Progresses r advance := by
  intro s x t h
  obtain ⟨token, rest, _⟩ := advance_run h
  simp [rest]

theorem progresses_expect {p : Lexeme → Bool} : Progresses r (expect p) := by
  intro s x t h
  obtain ⟨token, _, rest, _⟩ := expect_run h
  simp [rest]

theorem Progresses.ite {b : Bool} {p q : Parser α} (first : Progresses r p) (second : Progresses r q) :
    Progresses r (if b then p else q) := by
  split
  · exact first
  · exact second

theorem Progresses.node {kind : Kind} {p : Parser α} {other : kind ≠ .superCall} (inner : Progresses r p) :
    Progresses r (node kind p other) := by
  intro s a t h
  obtain ⟨u, run, rfl⟩ := node_run h
  have fewer := inner _ a u run
  exact fewer

theorem Progresses.wrap {kind : Kind} {p : Parser α} {other : kind ≠ .superCall} (inner : Progresses r p) :
    Progresses r (wrap kind p other) := by
  rintro ⟨_ | ⟨newest, older⟩, rest⟩ a t h
  · cases h
  · obtain ⟨b, u, run, same⟩ := Outcome.andThen_eq_found h
    cases same
    have fewer := inner _ a u run
    exact fewer

theorem Progresses.call {rule : Rule α} (body : ∀ depth,
    Progresses (Grammar.reader isOpen depth) (Grammar.body rule)) :
    Progresses (Grammar.reader isOpen depth) (call rule) := by
  intro s a t h
  cases depth with
  | zero => cases h
  | succ depth => exact body depth s a t h

/-- What comes later does not matter behind a token that has been moved. -/
theorem Progresses.bind {p : Parser α} {f : α → Parser β} (first : Progresses (Grammar.reader isOpen depth) p) :
    Progresses (Grammar.reader isOpen depth) (p >>= f) := by
  intro s b u h
  obtain ⟨a, t, run, last⟩ := bind_run h
  exact Nat.lt_of_le_of_lt (rest_le last) (first s a t run)

theorem Progresses.behind {p : Parser α} {f : α → Parser β}
    (second : ∀ a, Progresses (Grammar.reader isOpen depth) (f a)) :
    Progresses (Grammar.reader isOpen depth) (p >>= f) := by
  intro s b u h
  obtain ⟨a, t, run, last⟩ := bind_run h
  exact Nat.lt_of_lt_of_le (second a t b u last) (rest_le run)

/-- Where a token may be moved or not, it is enough to look at the case that it is not. -/
theorem Progresses.behind_eat {p : Lexeme → Bool} {f : Bool → Parser β}
    (second : Progresses (Grammar.reader isOpen depth) (f false)) :
    Progresses (Grammar.reader isOpen depth) (eat p >>= f) := by
  intro s b u h
  obtain ⟨a, t, run, last⟩ := bind_run h
  obtain ⟨_, token, _, rest, _⟩ | ⟨rfl, rfl⟩ := eat_run run
  · have fewer := rest_le last
    simp only [rest, List.length_cons]
    omega
  · exact second s b u last

/-- Whether a parser either finds nothing and leaves everything as it is, or moves at least one token. -/
def Attempts (r : Reader) (p : Parser (Option α)) : Prop :=
  ∀ s a t, p.run r s = .found a t → a = none ∧ s = t ∨ t.rest.length < s.rest.length

theorem attempts_none : Attempts r (pure none : Parser (Option α)) := fun _ _ _ h => Or.inl (pure_run h)

theorem Progresses.attempt {p : Parser α} (progresses : Progresses (Grammar.reader isOpen depth) p) :
    Attempts (Grammar.reader isOpen depth) p.attempt := by
  intro s a t h
  obtain found | nothing := orElse_run h
  · exact Or.inr (progresses.bind s a t found)
  · exact Or.inl (pure_run nothing)

theorem Attempts.ite {b : Bool} {p q : Parser (Option α)} (first : Attempts r p) (second : Attempts r q) :
    Attempts r (if b then p else q) := by
  split
  · exact first
  · exact second

theorem Attempts.behind_eat {p : Lexeme → Bool} {f : Bool → Parser (Option β)}
    (second : Attempts (Grammar.reader isOpen depth) (f false)) :
        Attempts (Grammar.reader isOpen depth) (eat p >>= f) := by
  intro s b u h
  obtain ⟨a, t, run, last⟩ := bind_run h
  obtain ⟨_, token, _, rest, _⟩ | ⟨rfl, rfl⟩ := eat_run run
  · have fewer := rest_le last
    simp only [rest, List.length_cons]
    omega
  · exact second s b u last

/-- Behind an attempt, it is enough to look at the case that nothing has been found. -/
theorem Progresses.behind_attempt {p : Parser (Option α)} {f : Option α → Parser β}
    (first : Attempts (Grammar.reader isOpen depth) p) (second : Progresses (Grammar.reader isOpen depth) (f none)) :
    Progresses (Grammar.reader isOpen depth) (p >>= f) := by
  intro s b u h
  obtain ⟨a, t, run, last⟩ := bind_run h
  obtain ⟨rfl, rfl⟩ | fewer := first s a t run
  · exact second s b u last
  · exact Nat.lt_of_le_of_lt (rest_le last) fewer

/-- Whether a parser moves nothing and answers by the tokens to come, whatever trees stand before them. -/
def Looks (p : Parser α) : Prop :=
  ∀ r s a u, p.run r s = .found a u → s = u ∧
    ∀ r' t, r'.isOpen = r.isOpen → t.rest = s.rest → t.isFresh = s.isFresh → p.run r' t = .found a t

theorem looks_pure (a : α) : Looks (pure a) := by
  intro r s b u h
  obtain ⟨rfl, rfl⟩ := pure_run h
  exact ⟨rfl, fun _ _ _ _ _ => rfl⟩

theorem looks_peek (place : Nat) : Looks (peek place) := by
  intro r s a u h
  obtain ⟨rfl, rfl⟩ := peek_run h
  refine ⟨rfl, fun r' t isOpen rest fresh => ?_⟩
  have same : t.glimpse? place = s.glimpse? place := by simp only [State.glimpse?, rest, fresh]
  rw [run] at h ⊢
  rw [isOpen, rest, same]
  split at h
  · cases h
  · next known => rw [if_neg known]

theorem Looks.bind {p : Parser α} {f : α → Parser β} (first : Looks p) (second : ∀ a, Looks (f a)) :
    Looks (p >>= f) := by
  intro r s b u h
  obtain ⟨a, v, run, last⟩ := bind_run h
  obtain ⟨rfl, again⟩ := first r s a v run
  obtain ⟨rfl, again'⟩ := second a r s b u last
  refine ⟨rfl, fun r' t isOpen rest fresh => ?_⟩
  rw [run_bind, again r' t isOpen rest fresh]
  exact again' r' t isOpen rest fresh

theorem Looks.ite {b : Bool} {p q : Parser α} (first : Looks p) (second : Looks q) : Looks (if b then p else q) := by
  split
  · exact first
  · exact second

end Parser

namespace Grammar

open Script.Parser

variable {r : Reader} {isOpen : Bool} {depth : Nat} {c : Context} {s t : State} {kind : ItemKind}

theorem looks_touching (m : Mark) (place limit : Nat) : Looks (touching m place limit) := by
  induction limit generalizing place with
  | zero => exact looks_pure 0
  | succ limit ih =>
    exact (looks_peek place).bind fun next => .ite ((ih (place + 1)).bind fun _ => looks_pure _) (looks_pure 0)

theorem looks_operatorAhead : Looks operatorAhead? := by
  refine Looks.bind ((looks_peek 0).bind fun _ => looks_pure _) fun next => ?_
  split
  case h_4 | h_5 =>
    refine (looks_touching _ _ _).bind fun angles => (looks_touching _ _ _).bind fun equals => ?_
    split <;> exact looks_pure _
  all_goals exact looks_pure _

theorem looks_operatorAbove (c : Context) (level : Nat) : Looks (operatorAbove? c level) := by
  refine looks_operatorAhead.bind fun found => ?_
  split <;> exact looks_pure _

/-- An operator is at least one token. -/
theorem operatorAhead_pos : Answers r operatorAhead? fun found => ∀ op count,
    found = some (op, count) → 0 < count := by
  refine .bind fun next => ?_
  split
  case h_4 | h_5 =>
    refine .bind fun angles => .bind fun equals => ?_
    split <;> exact .pure (by simp +contextual)
  all_goals exact .pure (by simp +contextual)

theorem progresses_advanceOperator : Progresses (reader isOpen depth) advanceOperator := by
  intro s x t h
  obtain ⟨found, u, ahead, h⟩ := bind_run h
  obtain ⟨rfl, _⟩ := looks_operatorAhead _ _ _ _ ahead
  cases found with
  | none => cases h
  | some found =>
    obtain ⟨op, count⟩ := found
    have pos := operatorAhead_pos _ _ _ ahead op count rfl
    obtain ⟨count, rfl⟩ := Nat.exists_eq_succ_of_ne_zero (Nat.ne_of_gt pos)
    exact progresses_advance.bind s x t h

theorem looks_afterBreak : Looks afterBreak := (looks_peek 0).bind fun _ => looks_pure _

/-- Where an operator comes next, the operators of an expression are not empty. -/
theorem operatorsRule_progress {level : Nat} {left shape : Shape} {op : Operator} {u : State}
    (next : (operatorAbove? c level).run (reader isOpen depth) s = .found (some op) u)
    (h : (operatorsRule c level left).run (reader isOpen depth) s = .found shape t) :
        t.rest.length < s.rest.length := by
  obtain ⟨_, _, broken, h⟩ := bind_run h
  obtain ⟨rfl, _⟩ := looks_afterBreak _ _ _ _ broken
  obtain ⟨_, _, atAs, h⟩ := bind_run h
  obtain ⟨rfl, _⟩ := headIs_run atAs
  split at h
  · exact progresses_advance.bind.wrap.bind _ shape t h
  · rw [run_bind, next, Outcome.andThen] at h
    obtain ⟨rfl, _⟩ := looks_operatorAbove c level _ _ _ _ next
    exact Progresses.behind (fun _ => progresses_advanceOperator.bind.wrap.bind) s shape t h

theorem progresses_expectWord (p : Lexeme → Bool) : Progresses r (expectWord p) := by
  intro s word t h
  obtain ⟨token, _, rest, _⟩ := expectWord_run h
  simp [rest]

theorem progresses_functionFrom {named : Bool} : Progresses (reader isOpen depth) (functionFrom c named) :=
    progresses_expect.bind

theorem progresses_classFrom {named : Bool} : Progresses (reader isOpen depth) (classFrom c named) :=
    progresses_expect.bind

theorem progresses_functionDeclaration : Progresses (reader isOpen depth) (functionDeclaration c) :=
  Progresses.node (.behind_eat (f := fun _ => functionFrom c true) progresses_functionFrom)

theorem progresses_functionValue : Progresses (reader isOpen depth) (functionValue c) :=
  (Progresses.behind_eat progresses_functionFrom.bind).node

theorem progresses_nameOperand {atStart : Bool} : Progresses (reader isOpen depth) (nameOperand c atStart) :=
  (progresses_expectWord _).bind

theorem progresses_asyncOperand {atStart : Bool} : Progresses (reader isOpen depth) (asyncOperand c atStart) := by
  have plain : Progresses (reader isOpen depth) (do
      if atStart && (← secondIs (· = .mark .parenL)) then
        advance
        let seen ← wrap .call (contents c)
        afterContents c true true seen
      else nameOperand c atStart) := .behind fun _ => .ite progresses_advance.bind progresses_nameOperand
  refine .behind fun function => .behind fun broken =>
    .ite progresses_functionValue (.behind fun generic => .ite ?_ plain)
  exact .behind_attempt (Progresses.attempt progresses_expect.bind.node) plain

theorem progresses_simpleOperand {atStart : Bool} : Progresses (reader isOpen depth) (simpleOperand c atStart) := by
  refine .behind fun next => ?_
  split
  all_goals first
    | exact progresses_advance.bind
    | exact progresses_expect.bind.node
    | exact progresses_expect.bind.node.bind
    | exact progresses_functionValue
    | exact progresses_expect.bind.bind.node
    | exact progresses_asyncOperand
    | exact progresses_nameOperand

theorem progresses_chainRule {atStart : Bool} : Progresses (reader isOpen depth) (chainRule c atStart) := by
  refine .behind fun super => .ite progresses_expect.bind.bind
    (.behind fun import_ => .ite progresses_expect.bind.bind ?_)
  exact .behind fun new => .ite progresses_expect.bind.node.bind progresses_simpleOperand.bind

theorem progresses_operandRule {atStart : Bool} : Progresses (reader isOpen depth) (operandRule c atStart) := by
  refine .behind fun angle => .ite progresses_advance.bind.node.bind
    (.behind fun step => .ite progresses_advance.bind.node.bind ?_)
  refine .behind fun sign => .ite progresses_advance.bind.node.bind
    (.behind fun await => .ite progresses_advance.bind.node.bind ?_)
  exact progresses_chainRule.bind

/-- An operand may be missing only before an operator. -/
theorem progresses_operationRule {atStart : Bool} : Progresses (reader isOpen depth) (operationRule c atStart) := by
  intro s shape t h
  obtain ⟨left, u, operand, h⟩ := bind_run h
  obtain found | missing := orElse_run operand
  · have fewer := progresses_operandRule s left u found
    split at h
    · obtain ⟨_, rfl⟩ := pure_run h
      exact fewer
    · exact Nat.lt_of_le_of_lt (rest_le h) fewer
  · obtain ⟨op, _, next, missing⟩ := bind_run missing
    obtain ⟨rfl, again⟩ := looks_operatorAbove c 0 _ _ _ _ next
    obtain ⟨_, _, isOp, missing⟩ := bind_run missing
    obtain ⟨some_, _⟩ := Bool.and_eq_true_iff.mp (guardThat_holds isOp)
    obtain ⟨op, rfl⟩ := Option.isSome_iff_exists.mp some_
    obtain rfl := guardThat_run isOp
    obtain ⟨_, _, empty, last⟩ := bind_run missing
    obtain ⟨rfl, rfl⟩ := pure_run last
    obtain ⟨inner, nothing, rfl⟩ := node_run empty
    obtain ⟨_, rfl⟩ := pure_run nothing
    rw [if_neg nofun] at h
    cases depth with
    | zero => cases h
    | succ depth =>
      have next' := again (reader isOpen depth) ⟨.node .binary [] :: s.built, s.rest⟩
        (by rw [isOpen_reader, isOpen_reader]) rfl
        (State.isFresh_node .binary ⟨[], s.rest⟩ s.built s.rest)
      have operators : (operatorsRule c 0 .other).run (reader isOpen depth) ⟨.node .binary [] :: s.built, s.rest⟩ =
        .found shape t := h
      have fewer := operatorsRule_progress next' operators
      exact fewer

/-- An expression without commas is not empty. -/
theorem progresses_assignment : Progresses (reader isOpen depth) (assignment c) := by
  refine .call fun depth => ?_
  have plain {c : Context} : Progresses (reader isOpen depth) (plainAssignment c) :=
    .behind fun yield => .ite progresses_expect.bind.node progresses_operationRule.bind.bind
  refine .behind fun generic => .ite (.behind_attempt (Progresses.attempt ?_) plain) plain
  exact progresses_expect.bind.node.bind.node

theorem progresses_exportClause : Progresses (reader isOpen depth) exportClause :=
  .behind_eat progresses_expect.bind.bind

/-- What is exported by default stands behind both keywords. -/
theorem exportDefault_moves (h : (exportDefault c).run (reader isOpen depth) s = .found kind t) :
    t.rest.length + 2 ≤ s.rest.length := by
  obtain ⟨_, u, keyword, h⟩ := bind_run h
  have fewer := progresses_expect s _ u keyword
  have behindKeyword : t.rest.length < u.rest.length := by
    refine (?_ : Progresses (reader isOpen depth) _) u kind t h
    refine .behind fun abstract_ => .ite progresses_advance.bind (.behind_eat (.behind fun class_ => .ite ?_ ?_))
    · exact progresses_classFrom.bind
    · refine .behind fun function => .ite progresses_functionFrom.bind
        (.behind fun async => .ite progresses_advance.bind ?_)
      exact progresses_assignment.bind
  omega

theorem progresses_exportOther : Progresses (reader isOpen depth) (exportOther c) := by
  refine .behind_eat (.behind fun default_ => .ite ?_ (.behind fun class_ => .ite progresses_classFrom.bind ?_))
  · intro s kind t h
    have fewer := exportDefault_moves h
    omega
  · refine .behind fun function => .ite ?_ (.behind fun constants => .ite progresses_expect.bind.bind ?_)
    · exact .behind fun _ => .behind fun _ => .behind fun _ => progresses_functionDeclaration.bind
    · refine .behind fun _ => .behind fun _ => .ite ?_ progresses_exportClause
      exact Progresses.bind (Progresses.behind fun _ => .behind fun _ => progresses_advance.bind).node

theorem attempts_exportedNamedDeclaration : Attempts (reader isOpen depth) (exportedNamedDeclaration c) := by
  intro s a t h
  obtain ⟨word, _, test, h⟩ := bind_run h
  obtain rfl := nextWord_run test
  cases word with
  | none => exact attempts_none s a t h
  | some word => exact Attempts.ite (Progresses.attempt progresses_advance.bind) attempts_none s a t h

theorem attempts_exportAlias : Attempts (reader isOpen depth) (exportAlias? c) :=
  .behind_eat (.behind_eat (.behind_eat attempts_none))

/-- Something stands behind the keyword of an exported declaration, and behind both keywords of a default export. -/
theorem exportDeclaration_moves (h : (exportDeclaration c).run (reader isOpen depth) s = .found kind t) :
    t.rest.length + 2 ≤ s.rest.length ∧ (kind = .exportedDefault → t.rest.length + 3 ≤ s.rest.length) := by
  constructor
  · obtain ⟨_, u, keyword, h⟩ := bind_run h
    have fewer := progresses_expect s _ u keyword
    have behindKeyword : t.rest.length < u.rest.length := by
      refine (?_ : Progresses (reader isOpen depth) _) u kind t h
      refine .behind_eat (.behind_attempt attempts_exportedNamedDeclaration (.behind_attempt attempts_exportAlias ?_))
      exact progresses_exportOther
    omega
  · rintro rfl
    obtain ⟨u, _, fewer, other⟩ := exportDeclaration_other h nofun nofun
    have moves := exportDefault_moves (exportOther_exportDefault other)
    omega

theorem itemRule_moves (h : (itemRule c).run (reader isOpen depth) s = .found kind t) :
    (kind = .exportedDeclaration → t.rest.length + 2 ≤ s.rest.length) ∧
      (kind = .exportedDefault → t.rest.length + 3 ≤ s.rest.length) := by
  obtain ⟨inner, run, rfl⟩ := node_run h
  obtain ⟨_, _, test, run⟩ := bind_run run
  obtain ⟨rfl, _⟩ := headIs_run test
  split at run
  · have moves := exportDeclaration_moves run
    exact ⟨fun _ => moves.1, moves.2⟩
  · obtain ⟨_, _, test, run⟩ := bind_run run
    obtain ⟨rfl, _⟩ := headIs_run test
    obtain ⟨_, _, test, run⟩ := bind_run run
    obtain rfl := nextTwo_run test
    split at run
    · rcases importDeclaration_kind _ _ _ run with rfl | ⟨_, _, rfl⟩ <;> exact ⟨nofun, nofun⟩
    · obtain ⟨_, _, _, last⟩ := bind_run run
      obtain ⟨rfl, _⟩ := pure_run last
      exact ⟨nofun, nofun⟩

end Grammar

end ModuleBundler.Script
