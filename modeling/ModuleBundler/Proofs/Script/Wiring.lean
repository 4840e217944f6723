import ModuleBundler.Proofs.Script.Stripping

namespace ModuleBundler.Script

/-- The value of a string literal. -/
def Lexeme.text? : Lexeme → Option String
  | .text value => some value
  | _ => none

/-- The values of the string literals among some tokens. -/
def textsOf (tokens : List Token) : List String := tokens.filterMap fun t => t.lexeme.text?

/-- Whether some tokens end with a semicolon, if one stands there. -/
def IsClosed (tokens rest : List Token) : Prop :=
  (∃ last ∈ tokens.getLast?, last.lexeme = .mark .semicolon) ∨ ∀ next ∈ rest.head?, next.lexeme ≠ .mark .semicolon

namespace Parser

variable {α β : Type} {r : Reader} {s t : State} {token : Token}

theorem headIs_false {p : Lexeme → Bool} (h : (headIs p).run r s = .found false t) :
    ∀ next ∈ s.rest.head?, p next.lexeme = false := by
  obtain ⟨found, _, peeked, last⟩ := bind_run h
  obtain ⟨rfl, rfl⟩ := peek_run peeked
  obtain ⟨none, rfl⟩ := pure_run last
  rcases s with ⟨built, _ | ⟨token, rest⟩⟩
  · exact nofun
  · rintro next ⟨⟩
    exact none.symm

theorem eat_false {p : Lexeme → Bool} (h : (eat p).run r s = .found false t) :
    ∀ next ∈ s.rest.head?, p next.lexeme = false := by
  obtain ⟨b, u, test, then_⟩ := bind_run h
  cases b with
  | false => exact headIs_false test
  | true =>
    obtain ⟨_, _, _, last⟩ := bind_run then_
    cases (pure_run last).1

theorem textsOf_row (built : t.built = .leaf token :: s.built) :
    textsOf t.row = textsOf s.row ++ token.lexeme.text?.toList := by
  rw [State.row_of_leaf built, textsOf, List.filterMap_append, textsOf]
  cases noText : token.lexeme.text? <;> simp [noText]

/-- Whether no token that a parser moves is a string. -/
def Silent (r : Reader) (p : Parser α) : Prop := ∀ s a t, p.run r s = .found a t → textsOf t.row = textsOf s.row

theorem Silent.pure (a : α) : Silent r (Pure.pure a) := fun _ _ _ h => (pure_run h).2 ▸ rfl

theorem Silent.bind {p : Parser α} {f : α → Parser β} (first : Silent r p) (second : ∀ a, Silent r (f a)) :
    Silent r (p >>= f) := by
  intro s b u h
  obtain ⟨a, t, run, last⟩ := bind_run h
  exact (second a t b u last).trans (first s a t run)

theorem Silent.ite {b : Bool} {p q : Parser α} (first : Silent r p) (second : Silent r q) :
    Silent r (if b then p else q) := by
  split
  · exact first
  · exact second

theorem Silent.iterate {a : α} {step : α → Parser (Option α)} (steps : ∀ a, Silent r (step a)) :
    Silent r (iterate a step) :=
  fun s _ _ h => iterate_run (P := fun _ t => textsOf t.row = textsOf s.row) (Q :=
    fun _ t => textsOf t.row = textsOf s.row)
    (fun b t _ u round kept => (steps b t _ u round).trans kept)
    (fun b t u round kept => (steps b t _ u round).trans kept) h rfl

theorem silent_headIs (p : Lexeme → Bool) : Silent r (headIs p) := fun _ _ _ h => (headIs_run h).1 ▸ rfl

theorem silent_guardThat (b : Bool) : Silent r (guardThat b) := fun _ _ _ h => guardThat_run h ▸ rfl

/-- Whether a test on lexemes refuses strings. -/
def RefusesTexts (p : Lexeme → Bool) : Prop := ∀ lexeme, p lexeme = true → lexeme.text? = none

theorem refusesTexts_eq {lexeme : Lexeme} (noText : lexeme.text? = none) : RefusesTexts (· = lexeme) :=
  fun _ same => of_decide_eq_true same ▸ noText

theorem silent_expect {p : Lexeme → Bool} (refuses : RefusesTexts p) : Silent r (expect p) := by
  intro s a t h
  obtain ⟨token, fits, _, built⟩ := expect_run h
  rw [textsOf_row built, refuses _ fits, Option.toList_none, List.append_nil]

theorem silent_eat {p : Lexeme → Bool} (refuses : RefusesTexts p) : Silent r (eat p) := by
  intro s a t h
  obtain ⟨_, token, fits, _, built⟩ | ⟨_, rfl⟩ := eat_run h
  · rw [textsOf_row built, refuses _ fits, Option.toList_none, List.append_nil]
  · rfl

theorem silent_commaList {closer : Mark} {element : Parser Unit} (elements : Silent r element) :
    Silent r (commaList closer element) := by
  refine .bind (.iterate fun _ => .bind ?_ fun _ => .pure _) fun _ => silent_expect (refusesTexts_eq rfl)
  refine .bind (silent_headIs _) fun atCloser => .ite (.pure _) (.bind elements fun _ => ?_)
  refine .bind (silent_eat (refusesTexts_eq rfl)) fun comma => .ite (.pure _) ?_
  exact .bind (silent_headIs _) fun _ => .bind (silent_guardThat _) fun _ => .pure _

theorem eatStatementEnd_run {b : Bool} (h : eatStatementEnd.run r s = .found b t) :
    textsOf t.row = textsOf s.row ∧ IsClosed t.row t.rest := by
  obtain ⟨eaten, u, test, ends⟩ := bind_run h
  obtain ⟨rfl, token, fits, _, built⟩ | ⟨rfl, rfl⟩ := eat_run test
  · obtain ⟨_, rfl⟩ := pure_run ends
    refine ⟨silent_eat (refusesTexts_eq rfl) s _ _ test, Or.inl ⟨token, ?_, by simpa using fits⟩⟩
    rw [State.row_of_leaf built, List.getLast?_concat]
    rfl
  · obtain rfl := atStatementEnd_run ends
    exact ⟨rfl, Or.inr fun next here => by simpa using eat_false test next here⟩

theorem expectStatementEnd_closed {x : Unit} (h : expectStatementEnd.run r s = .found x t) :
    textsOf t.row = textsOf s.row ∧ IsClosed t.row t.rest := by
  obtain ⟨_, _, ends, last⟩ := bind_run h
  obtain rfl := guardThat_run last
  exact eatStatementEnd_run ends

end Parser

namespace Grammar

open Script.Parser

variable {r : Reader} {isOpen : Bool} {depth : Nat} {c : Context} {s t : State} {kind : ItemKind}

theorem silent_expectWord (p : Lexeme → Bool) : Silent r (expectWord p) := by
  intro s word t h
  obtain ⟨token, isWord, _, built⟩ := expectWord_run h
  have noText : token.lexeme.text? = none := by
    cases eq : token.lexeme with
    | text value =>
      rw [eq] at isWord
      cases isWord
    | keyword | name | mark | number | regex | chunk => rfl
  rw [textsOf_row built, noText, Option.toList_none, List.append_nil]

theorem silent_importedName : Silent r importedName := by
  refine .bind ?_ fun next => .bind (silent_expectWord _) fun imported =>
    .bind (silent_eat (refusesTexts_eq rfl)) fun named => ?_
  · intro s a t h
    obtain ⟨_, _, peeked, last⟩ := bind_run h
    rw [← (pure_run last).2, ← (peek_run peeked).2]
  · exact .ite (.bind (silent_expectWord _) fun _ => .pure _) (.bind (silent_guardThat _) fun _ => .pure _)

theorem silent_importedNames : Silent r importedNames := by
  refine .bind (silent_expect (refusesTexts_eq rfl)) fun _ => .bind (.iterate fun seen => ?_) fun seen =>
    .bind (silent_expect (refusesTexts_eq rfl)) fun _ => .pure _
  refine .bind (silent_headIs _) fun atCloser => .ite (.pure _) (.ite ?_ ?_)
  · exact .bind (silent_expect (refusesTexts_eq rfl)) fun _ => .pure _
  · exact .bind silent_importedName fun _ => .pure _

theorem silent_furtherSpecifiers : Silent r furtherSpecifiers := by
  refine .bind (silent_eat (refusesTexts_eq rfl)) fun star => .ite ?_ ?_
  · exact .bind (silent_expect (refusesTexts_eq rfl)) fun _ => .bind (silent_expectWord _) fun _ => .pure _
  · exact .bind (silent_headIs _) fun braces => .ite silent_importedNames (.pure _)

theorem silent_exportedNames : Silent r exportedNames := by
  refine .bind (silent_expect (refusesTexts_eq rfl)) fun _ => .bind (silent_commaList ?_) fun _ => .pure _
  refine .bind (silent_expectWord _) fun _ => .bind (silent_eat (refusesTexts_eq rfl)) fun named => ?_
  exact .ite (.bind (silent_expectWord _) fun _ => .pure _) (.pure _)

/-- Whether what a parser reads as wiring holds the name of the module that it depends on and no other string, and
goes up to its semicolon. -/
def Wires (r : Reader) (p : Parser ItemKind) : Prop :=
  ∀ s kind t, p.run r s = .found kind t → kind.isWiring = true →
    textsOf t.row = textsOf s.row ++ kind.source?.toList ∧ IsClosed t.row t.rest

theorem Wires.of_kind {p : Parser ItemKind} (others : Answers r p fun kind => kind.isWiring = false) : Wires r p := by
  intro s kind t h isWiring
  rw [others s kind t h] at isWiring
  cases isWiring

theorem Wires.bind {α : Type} {p : Parser α} {f : α → Parser ItemKind} (first : Silent r p)
    (second : ∀ a, Wires r (f a)) :
    Wires r (p >>= f) := by
  intro s kind u h isWiring
  obtain ⟨a, t, run, last⟩ := bind_run h
  obtain ⟨texts, closed⟩ := second a t kind u last isWiring
  exact ⟨by rw [texts, first s a t run], closed⟩

theorem Wires.ite {b : Bool} {p q : Parser ItemKind} (first : Wires r p) (second : Wires r q) :
    Wires r (if b then p else q) := by
  split
  · exact first
  · exact second

theorem expectText_texts {source : String} (h : expectText.run r s = .found source t) :
    textsOf t.row = textsOf s.row ++ [source] := by
  obtain ⟨literal, isText, _, built⟩ := expectText_run h
  rw [textsOf_row built, isText]
  rfl

theorem sourceClause_texts {source : String} (h : sourceClause.run r s = .found source t) :
    textsOf t.row = textsOf s.row ++ [source] ∧ IsClosed t.row t.rest := by
  obtain ⟨_, u, from_, h⟩ := bind_run h
  obtain ⟨_, v, literal, h⟩ := bind_run h
  obtain ⟨_, _, ends, last⟩ := bind_run h
  obtain ⟨rfl, rfl⟩ := pure_run last
  obtain ⟨silent, closed⟩ := expectStatementEnd_closed ends
  refine ⟨?_, closed⟩
  rw [silent, expectText_texts literal, silent_expect (refusesTexts_eq rfl) s _ u from_]

/-- An item that ends with the module that it depends on. -/
theorem wires_sourceClause {f : String → ItemKind} (dependsOn : ∀ source, (f source).source? = some source) :
    Wires r (do return f (← sourceClause)) := by
  intro s kind t h _
  obtain ⟨source, _, clause, last⟩ := bind_run h
  obtain ⟨rfl, rfl⟩ := pure_run last
  rw [dependsOn]
  exact sourceClause_texts clause

theorem wires_importAfterDefault (binding : String) : Wires r (importAfterDefault binding) := by
  refine .bind (silent_headIs _) fun equals => .ite (.of_kind (aliasDeclaration_kind.imp fun _ same => same ▸ rfl)) ?_
  have behindComma : Wires r (do
      let further ← furtherSpecifiers
      return .importing (.byDefault binding :: further) (← sourceClause)) :=
    .bind silent_furtherSpecifiers fun further => wires_sourceClause fun _ => rfl
  exact .bind (silent_headIs _) fun named => .ite
    (.bind (silent_expect (refusesTexts_eq rfl)) fun _ => behindComma) behindComma

theorem atTypeOnlyImport_run {b : Bool} (h : atTypeOnlyImport.run r s = .found b t) :
    s = t ∧ (b = true → ∃ first, s.rest.head? = some first ∧ first.lexeme.text? = none) := by
  obtain ⟨named, _, test, h⟩ := bind_run h
  obtain ⟨rfl, found⟩ := headIs_run test
  cases named with
  | false =>
    obtain ⟨rfl, rfl⟩ := pure_run h
    exact ⟨rfl, nofun⟩
  | true =>
    obtain ⟨first, head, isType⟩ := found rfl
    refine ⟨?_, fun _ => ⟨first, head, refusesTexts_eq rfl _ isType⟩⟩
    obtain ⟨_, _, second, h⟩ := bind_run h
    obtain ⟨_, _, peeked, last⟩ := bind_run second
    obtain ⟨_, rfl⟩ := peek_run peeked
    obtain ⟨_, rfl⟩ := pure_run last
    split at h
    all_goals
      obtain ⟨_, _, peeked, last⟩ := bind_run h
      obtain ⟨_, rfl⟩ := peek_run peeked
      exact (pure_run last).2

theorem wires_importDeclaration : Wires r importDeclaration := by
  have behindType : Wires r (do
      if ← headIs Lexeme.isFreeName then importAfterDefault (← bindingName)
      else
        let specifiers ← furtherSpecifiers
        return .importing specifiers (← sourceClause)) :=
    .bind (silent_headIs _) fun named => .ite (.bind (silent_expectWord _) wires_importAfterDefault)
      (.bind silent_furtherSpecifiers fun specifiers => wires_sourceClause fun _ => rfl)
  refine .bind (silent_expect (refusesTexts_eq rfl)) fun _ => .bind (silent_headIs _) fun bare => .ite ?_ ?_
  · intro s kind t h _
    obtain ⟨source, u, literal, h⟩ := bind_run h
    obtain ⟨_, _, ends, last⟩ := bind_run h
    obtain ⟨rfl, rfl⟩ := pure_run last
    obtain ⟨silent, closed⟩ := expectStatementEnd_closed ends
    exact ⟨silent.trans (expectText_texts literal), closed⟩
  · intro s kind t h isWiring
    obtain ⟨typeOnly, _, test, h⟩ := bind_run h
    obtain ⟨rfl, found⟩ := atTypeOnlyImport_run test
    split at h
    · next isTypeOnly =>
      obtain ⟨_, u, moved, h⟩ := bind_run h
      obtain ⟨token, rest, built⟩ := advance_run moved
      obtain ⟨first, head, noText⟩ := found isTypeOnly
      rw [rest] at head
      cases head
      obtain ⟨texts, closed⟩ := behindType _ _ _ h isWiring
      refine ⟨?_, closed⟩
      rw [texts, textsOf_row built, noText, Option.toList_none, List.append_nil]
    · exact behindType _ _ _ h isWiring

theorem wires_exportClause : Wires r exportClause := by
  refine .bind (silent_eat (refusesTexts_eq rfl)) fun star => .ite ?_ (.bind silent_exportedNames fun _ => ?_)
  · refine .bind (silent_eat (refusesTexts_eq rfl)) fun named => .ite ?_ (wires_sourceClause fun _ => rfl)
    exact .bind (silent_expectWord _) fun _ => wires_sourceClause fun _ => rfl
  · refine .bind (silent_headIs _) fun from_ => .ite (wires_sourceClause fun _ => rfl) ?_
    intro s kind t h _
    obtain ⟨_, _, ends, last⟩ := bind_run h
    obtain ⟨rfl, rfl⟩ := pure_run last
    obtain ⟨silent, closed⟩ := eatStatementEnd_run ends
    exact ⟨by rw [silent]; exact (List.append_nil _).symm, closed⟩

theorem silent_nextTwo {p q : Glimpse → Bool} : Silent r (nextTwo p q) := fun _ _ _ h => nextTwo_run h ▸ rfl

theorem wires_exportOther : Wires r (exportOther c) := by
  have declares {p : Parser Unit} : Wires r (do p; return .exportedDeclaration) := .of_kind (.bind fun _ => .pure rfl)
  refine .bind (silent_eat (refusesTexts_eq rfl)) fun type_ => .ite wires_exportClause ?_
  refine .bind (silent_headIs _) fun default_ => .ite (.of_kind (exportDefault_kind.imp fun _ same => same ▸ rfl)) ?_
  refine .bind (silent_headIs _) fun class_ => .ite declares (.bind (silent_headIs _) fun function => .ite ?_ ?_)
  · exact .of_kind (.bind fun _ => .bind fun _ => .bind fun _ => .bind fun _ => .pure rfl)
  · refine .bind silent_nextTwo fun constants => .ite (.of_kind (.bind fun _ => .pure rfl)) ?_
    exact .bind (silent_headIs _) fun variable_ => .bind silent_nextTwo fun let_ => .ite declares wires_exportClause

/-- A declaration of what exists elsewhere that is not there leaves everything as it is. -/
theorem ambientDeclaration_run (h : (ambientDeclaration c).run r s = .found false t) : s = t := by
  have declared {p : Parser Unit} {u v : State} (h : (do p; return true : Parser Bool).run r u = .found false v) :
      False := by
    obtain ⟨_, _, _, last⟩ := bind_run h
    cases (pure_run last).1
  obtain ⟨_, _, test, h⟩ := bind_run h
  obtain ⟨rfl, _⟩ := headIs_run test
  split at h
  · exact (declared h).elim
  obtain ⟨_, _, test, h⟩ := bind_run h
  obtain ⟨rfl, _⟩ := headIs_run test
  split at h
  · exact (declared h).elim
  obtain ⟨_, _, test, h⟩ := bind_run h
  obtain rfl := nextTwo_run test
  split at h
  · exact (declared h).elim
  obtain ⟨_, _, test, h⟩ := bind_run h
  obtain ⟨rfl, _⟩ := headIs_run test
  split at h
  · exact (declared h).elim
  obtain ⟨_, _, test, h⟩ := bind_run h
  obtain ⟨rfl, _⟩ := headIs_run test
  split at h
  · exact (declared h).elim
  obtain ⟨word, _, test, h⟩ := bind_run h
  obtain rfl := nextWord_run test
  cases word with
  | none => exact (pure_run h).2
  | some word =>
    simp only at h
    split at h
    · obtain ⟨_, _, _, h⟩ := bind_run h
      exact (declared h).elim
    · exact (pure_run h).2

/-- An export that is neither a declaration nor an alias is read as something else from behind its first words on. -/
theorem exportDeclaration_other (h : (exportDeclaration c).run r s = .found kind t)
    (noDeclaration : kind ≠ .exportedDeclaration)
    (noAlias : kind ≠ .aliasing) :
    ∃ u, textsOf u.row = textsOf s.row ∧ u.rest.length < s.rest.length ∧ (exportOther c).run r u = .found kind t := by
  obtain ⟨_, first, export_, h⟩ := bind_run h
  obtain ⟨declare, second, test, h⟩ := bind_run h
  have silent := silent_expect (refusesTexts_eq rfl) s _ first export_
  have silent' := silent_eat (refusesTexts_eq rfl) first _ second test
  have fewer : second.rest.length < s.rest.length := by
    obtain ⟨_, _, rest, _⟩ := expect_run export_
    rw [rest, List.length_cons]
    obtain ⟨_, _, _, rest', _⟩ | ⟨_, rfl⟩ := eat_run test
    · rw [rest', List.length_cons]
      omega
    · exact Nat.lt_succ_self _
  simp only at h
  split at h
  all_goals
    obtain ⟨declared, v, ambient, h⟩ := bind_run h
    split at h
    · exact absurd (pure_run h).1 noDeclaration
    · next undeclared =>
      obtain rfl : declared = false := by simpa using undeclared
      obtain rfl : second = v := by first | exact ambientDeclaration_run ambient | exact (pure_run ambient).2
      obtain ⟨named, _, test, h⟩ := bind_run h
      split at h
      · exact absurd (pure_run h).1 noDeclaration
      · next noName =>
        obtain rfl : named = none := by simpa using noName
        obtain rfl := exportedNamedDeclaration_run test
        obtain ⟨found, _, test, h⟩ := bind_run h
        obtain rfl | rfl := exportAlias_kind _ _ _ test
        · obtain rfl := exportAlias_run test
          exact ⟨second, silent'.trans silent, fewer, h⟩
        · exact absurd (pure_run h).1 noAlias

theorem wires_exportDeclaration : Wires r (exportDeclaration c) := by
  intro s kind t h isWiring
  have noDeclaration : kind ≠ .exportedDeclaration ∧ kind ≠ .aliasing := by
    constructor
    all_goals
      rintro rfl
      cases isWiring
  obtain ⟨u, silent, _, other⟩ := exportDeclaration_other h noDeclaration.1 noDeclaration.2
  rw [← silent]
  exact wires_exportOther u kind t other isWiring

/-- What a parser in a node reads is what the node holds. -/
theorem itemRule_wires (h : (itemRule c).run r s = .found kind t) (isWiring : kind.isWiring = true) :
    ∃ tree, t.built = tree :: s.built ∧ textsOf tree.leaves = kind.source?.toList ∧ IsClosed tree.leaves t.rest := by
  obtain ⟨inner, run, rfl⟩ := node_run h
  have wires : Wires r (do
      if ← atKeyword .export_ then exportDeclaration c
      else if (← atKeyword .import_) && !(← atImportCall) then importDeclaration
      else
        statement c true
        return .statement) := by
    refine .bind (silent_headIs _) fun export_ => .ite wires_exportDeclaration ?_
    refine .bind (silent_headIs _) fun import_ => .bind silent_nextTwo fun call => .ite wires_importDeclaration ?_
    exact .of_kind (.bind fun _ => .pure rfl)
  refine ⟨_, rfl, ?_⟩
  rw [Tree.leaves]
  exact wires _ kind inner run isWiring

end Grammar

variable {isOpen : Bool} {depth : Nat} {tokens rest : List Token} {item : Item}

/-- The strings in what is wiring are the module that it depends on, if there is one, and it goes
up to its semicolon. -/
theorem wires_of_readItem (read : readItem (Grammar.reader isOpen depth) tokens = some (item, rest))
    (isWiring : item.kind.isWiring = true) :
    textsOf item.tree.leaves = item.kind.source?.toList ∧ IsClosed item.tree.leaves rest := by
  unfold readItem at read
  split at read
  · next kind tree rest run =>
    cases read
    cases depth with
    | zero => cases run
    | succ depth =>
      obtain ⟨_, same, texts, closed⟩ := Grammar.itemRule_wires (r := Grammar.reader isOpen depth) run isWiring
      cases same
      exact ⟨texts, closed⟩
  · cases read

end ModuleBundler.Script
