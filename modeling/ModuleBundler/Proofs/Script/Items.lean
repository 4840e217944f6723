import Mathlib.Data.List.Forall2
import ModuleBundler.Proofs.Script.Parser
import ModuleBundler.Script.Module

namespace ModuleBundler.Script

namespace Grammar

open Script.Parser

variable {r : Reader} {isOpen : Bool} {depth : Nat} {c : Context} {s t : State} {kind : ItemKind}

/-- Whether an item says only what it takes from other modules. -/
def IsImport (kind : ItemKind) : Prop := kind = .aliasing ∨ ∃ specifiers source, kind = .importing specifiers source

theorem aliasDeclaration_kind : Answers r aliasDeclaration (· = .aliasing) :=
  .bind fun _ => .bind fun _ => .bind fun _ => .pure rfl

theorem importAfterDefault_kind (binding : String) : Answers r (importAfterDefault binding) IsImport := by
  have isImport (specifiers source) : IsImport (.importing specifiers source) := Or.inr ⟨_, _, rfl⟩
  refine .bind fun equals => .ite (fun s a t h => Or.inl (aliasDeclaration_kind s a t h)) ?_
  refine .bind fun named => .ite (.bind fun _ => .bind fun _ => .bind fun _ => .pure (isImport _ _)) ?_
  exact .bind fun _ => .bind fun _ => .pure (isImport _ _)

theorem importDeclaration_kind : Answers r importDeclaration IsImport := by
  have isImport (specifiers source) : IsImport (.importing specifiers source) := Or.inr ⟨_, _, rfl⟩
  have behindType : Answers r (do
      if ← headIs Lexeme.isFreeName then importAfterDefault (← bindingName)
      else
        let specifiers ← furtherSpecifiers
        return .importing specifiers (← sourceClause) : Parser ItemKind) IsImport :=
    .bind fun _ => .ite (.bind importAfterDefault_kind) (.bind fun _ => .bind fun _ => .pure (isImport _ _))
  refine .bind fun _ => .bind fun bare => .ite (.bind fun _ => .bind fun _ => .pure (isImport _ _)) ?_
  exact .bind fun typeOnly => .ite (.bind fun _ => behindType) behindType

/-- Whether an item takes nothing from other modules for itself. -/
def IsExport (kind : ItemKind) : Prop := ∀ specifiers source, kind ≠ .importing specifiers source

theorem exportClause_kind : Answers r exportClause fun kind => kind ≠ .exportedDefault ∧ IsExport kind := by
  refine .bind fun star => .ite (.bind fun named => .ite ?_ ?_) (.bind fun _ => .bind fun from_ => .ite ?_ ?_)
  · exact .bind fun _ => .bind fun _ => .pure ⟨nofun, nofun⟩
  · exact .bind fun _ => .pure ⟨nofun, nofun⟩
  · exact .bind fun _ => .pure ⟨nofun, nofun⟩
  · exact .bind fun _ => .pure ⟨nofun, nofun⟩

/-- What an export declares by default is no export of another module. -/
theorem exportDefault_kind : Answers r (exportDefault c) (· = .exportedDefault) := by
  refine .bind fun _ => .bind fun abstract_ => .ite (.bind fun _ => .bind fun _ => .pure rfl) ?_
  refine .bind fun interface_ => .ite (.bind fun _ => .pure rfl) ?_
  refine .bind fun class_ => .ite (.bind fun _ => .pure rfl) ?_
  refine .bind fun function => .ite (.bind fun _ => .pure rfl) ?_
  exact .bind fun async => .ite (.bind fun _ => .bind fun _ => .pure rfl) (.bind fun _ => .bind fun _ => .pure rfl)

theorem exportOther_kind : Answers r (exportOther c) IsExport := by
  have clause : Answers r exportClause IsExport := exportClause_kind.imp fun _ found => found.2
  have byDefault : Answers r (exportDefault c) IsExport := exportDefault_kind.imp fun _ same => same ▸ nofun
  refine .bind fun type_ => .ite clause (.bind fun default_ => .ite byDefault ?_)
  refine .bind fun class_ => .ite (.bind fun _ => .pure nofun) ?_
  refine .bind fun function => .ite (.bind fun _ => .bind fun _ => .bind fun _ => .bind fun _ => .pure nofun) ?_
  refine .bind fun constants => .ite (.bind fun _ => .pure nofun) ?_
  exact .bind fun _ => .bind fun _ => .ite (.bind fun _ => .pure nofun) clause

theorem exportAlias_kind : Answers r (exportAlias? c) fun found => found = none ∨ found = some .aliasing := by
  refine .bind fun import_ => .ite (.bind fun _ => ?_) ?_
  · intro s a t h
    obtain ⟨_, _, isAlias, h⟩ := bind_run h
    rw [(pure_run h).1, aliasDeclaration_kind _ _ _ isAlias]
    exact Or.inr rfl
  · refine .bind fun equals => .ite (.bind fun _ => .bind fun _ => .pure (Or.inr rfl)) ?_
    exact .bind fun namespace_ => .ite (.bind fun _ => .bind fun _ => .bind fun _ => .pure (Or.inr rfl))
      (.pure (Or.inl rfl))

/-- What an export without keywords before it declares by default is read as that. -/
theorem exportOther_exportDefault (h : (exportOther c).run r s = .found .exportedDefault t) :
    (exportDefault c).run r s = .found .exportedDefault t := by
  obtain ⟨_, _, test, h⟩ := bind_run h
  split at h
  · exact absurd rfl (exportClause_kind _ _ _ h).1
  · next noType =>
    obtain ⟨isType, _⟩ | ⟨_, rfl⟩ := eat_run test
    · exact absurd isType noType
    · obtain ⟨_, _, test, h⟩ := bind_run h
      obtain ⟨rfl, _⟩ := headIs_run test
      split at h
      · exact h
      · refine absurd rfl ((?_ : Answers _ _ (· ≠ .exportedDefault)) _ _ _ h)
        refine .bind fun class_ => .ite (.bind fun _ => .pure nofun) ?_
        refine .bind fun function => .ite (.bind fun _ => .bind fun _ => .bind fun _ => .bind fun _ => .pure nofun) ?_
        refine .bind fun constants => .ite (.bind fun _ => .pure nofun) ?_
        have clause : Answers r exportClause (· ≠ .exportedDefault) := exportClause_kind.imp fun _ found => found.1
        exact .bind fun _ => .bind fun _ => .ite (.bind fun _ => .pure nofun) clause

/-- What an export without keywords before it declares by default begins with `default`. -/
theorem exportOther_default (h : (exportOther c).run (reader isOpen depth) s = .found .exportedDefault t) :
    ∃ second, second.lexeme = .keyword .default_ ∧ s.row ++ [second] <+: t.row := by
  obtain ⟨_, u, first, rest⟩ := bind_run (exportOther_exportDefault h)
  obtain ⟨second, fits, _, built⟩ := expect_run first
  refine ⟨second, by simpa using fits, ?_⟩
  rw [← State.row_of_leaf built]
  exact row_prefix rest

/-- An alias that is not there leaves everything as it is. -/
theorem exportAlias_run (h : (exportAlias? c).run r s = .found none t) : s = t := by
  obtain ⟨_, _, test, h⟩ := bind_run h
  split at h
  · obtain ⟨_, _, _, h⟩ := bind_run h
    obtain ⟨_, _, _, h⟩ := bind_run h
    cases (pure_run h).1
  · next noImport =>
    obtain ⟨isImport, _⟩ | ⟨_, rfl⟩ := eat_run test
    · exact absurd isImport noImport
    · obtain ⟨_, _, test, h⟩ := bind_run h
      split at h
      · obtain ⟨_, _, _, h⟩ := bind_run h
        obtain ⟨_, _, _, h⟩ := bind_run h
        cases (pure_run h).1
      · next noEquals =>
        obtain ⟨isEquals, _⟩ | ⟨_, rfl⟩ := eat_run test
        · exact absurd isEquals noEquals
        · obtain ⟨_, _, test, h⟩ := bind_run h
          split at h
          · obtain ⟨_, _, _, h⟩ := bind_run h
            obtain ⟨_, _, _, h⟩ := bind_run h
            obtain ⟨_, _, _, h⟩ := bind_run h
            cases (pure_run h).1
          · next noAs =>
            obtain ⟨isAs, _⟩ | ⟨_, rfl⟩ := eat_run test
            · exact absurd isAs noAs
            · exact (pure_run h).2

theorem nextWord_run {word : Option String} (h : nextWord.run r s = .found word t) : s = t := by
  obtain ⟨_, _, lexeme, last⟩ := bind_run h
  obtain ⟨_, _, peeked, same⟩ := bind_run lexeme
  obtain ⟨_, rfl⟩ := peek_run peeked
  obtain ⟨_, rfl⟩ := pure_run same
  exact (pure_run last).2

theorem exportedNamedDeclaration_run (h : (exportedNamedDeclaration c).run r s = .found none t) : s = t := by
  obtain ⟨word, _, test, h⟩ := bind_run h
  obtain rfl := nextWord_run test
  cases word with
  | none => exact (pure_run h).2
  | some word =>
    simp only at h
    split at h
    · exact attempt_run h
    · exact (pure_run h).2

/-- The second token of a default export. A word that declares nothing may stand before the keyword. -/
def IsDefaultWord (lexeme : Lexeme) : Prop := lexeme = .keyword .default_ ∨ lexeme = .name "declare"

theorem exportDeclaration_run (h : (exportDeclaration c).run (reader isOpen depth) s = .found kind t) :
    ∃ first, first.lexeme = .keyword .export_ ∧ s.row ++ [first] <+: t.row ∧
      (kind = .exportedDefault → ∃ second, IsDefaultWord second.lexeme ∧ s.row ++ [first, second] <+: t.row) := by
  obtain ⟨_, u, atFirst, h⟩ := bind_run h
  obtain ⟨first, isExport, _, built⟩ := expect_run atFirst
  have row := State.row_of_leaf built
  refine ⟨first, by simpa using isExport, row ▸ row_prefix h, fun isDefault => ?_⟩
  subst isDefault
  obtain ⟨_, v, test, h⟩ := bind_run h
  simp only at h
  split at h
  · next isDeclare =>
    obtain ⟨_, second, fits, _, built⟩ | ⟨noDeclare, _⟩ := eat_run test
    · have row' := State.row_of_leaf built
      rw [row, List.append_assoc] at row'
      exact ⟨second, Or.inr (by simpa using fits), row' ▸ row_prefix h⟩
    · rw [isDeclare] at noDeclare
      cases noDeclare
  · next noDeclare =>
    obtain ⟨isDeclare, _⟩ | ⟨_, rfl⟩ := eat_run test
    · exact absurd isDeclare noDeclare
    · obtain ⟨_, _, same, h⟩ := bind_run h
      obtain ⟨rfl, rfl⟩ := pure_run same
      simp only [Bool.false_eq_true, if_false] at h
      obtain ⟨named, _, test, h⟩ := bind_run h
      split at h
      · cases (pure_run h).1
      · next noName =>
        obtain rfl : named = none := by simpa using noName
        obtain rfl := exportedNamedDeclaration_run test
        obtain ⟨found, _, test, h⟩ := bind_run h
        obtain rfl | rfl := exportAlias_kind _ _ _ test
        · obtain rfl := exportAlias_run test
          obtain ⟨second, isDefault, leads⟩ := exportOther_default h
          rw [row, List.append_assoc] at leads
          exact ⟨second, Or.inl isDefault, leads⟩
        · cases (pure_run h).1

/-- An export is a declaration, an alias, or something else that the module declares or names. -/
theorem exportDeclaration_cases (h : (exportDeclaration c).run r s = .found kind t) :
    kind = .exportedDeclaration ∨ kind = .aliasing ∨ ∃ u, (exportOther c).run r u = .found kind t := by
  obtain ⟨_, _, _, h⟩ := bind_run h
  obtain ⟨_, _, _, h⟩ := bind_run h
  simp only at h
  split at h
  all_goals
    obtain ⟨declared, _, _, h⟩ := bind_run h
    split at h
    · exact Or.inl (pure_run h).1
    · obtain ⟨named, _, _, h⟩ := bind_run h
      split at h
      · exact Or.inl (pure_run h).1
      · obtain ⟨found, v, test, h⟩ := bind_run h
        obtain rfl | rfl := exportAlias_kind _ _ _ test
        · exact Or.inr (Or.inr ⟨v, h⟩)
        · exact Or.inr (Or.inl (pure_run h).1)

theorem exportDeclaration_kind (h : (exportDeclaration c).run r s = .found kind t) : IsExport kind := by
  obtain rfl | rfl | ⟨u, run⟩ := exportDeclaration_cases h
  · exact nofun
  · exact nofun
  · exact exportOther_kind _ _ _ run

/-- The word that an export declares by default with stands somewhere in it. -/
theorem exportDeclaration_default (h : (exportDeclaration c).run (reader isOpen depth) s =
    .found .exportedDefault t) :
    ∃ keyword ∈ t.row, keyword.lexeme = .keyword .default_ := by
  obtain other | other | ⟨u, run⟩ := exportDeclaration_cases h
  · cases other
  · cases other
  · obtain ⟨keyword, isDefault, leads⟩ := exportOther_default run
    exact ⟨keyword, leads.subset (by simp), isDefault⟩

/-- Whether some tokens end with a string, but for a semicolon. -/
def EndsWithText (tokens : List Token) : Prop :=
  ∃ front literal value, ∃ semicolon : Option Token, tokens = front ++ literal :: semicolon.toList ∧
    literal.lexeme = .text value ∧ ∀ t ∈ semicolon, t.lexeme = .mark .semicolon

theorem sourceClause_run {source : String} (h : sourceClause.run r s = .found source t) : EndsWithText t.row := by
  obtain ⟨_, u, _, h⟩ := bind_run h
  obtain ⟨_, _, second, h⟩ := bind_run h
  obtain ⟨literal, isText, _, built⟩ := expectText_run second
  obtain ⟨_, _, third, last⟩ := bind_run h
  obtain ⟨rfl, rfl⟩ := pure_run last
  obtain ⟨semicolon, row, isSemicolon⟩ := expectStatementEnd_run third
  refine ⟨u.row, literal, source, semicolon, ?_, isText, isSemicolon⟩
  rw [row, State.row_of_leaf built, List.append_assoc, List.singleton_append]

/-- Whether an item is an export under one name of all that another module exports. -/
def IsAs (kind : ItemKind) : Prop := ∃ source, kind = .reexportingAs source

theorem exportClause_as (h : exportClause.run r s = .found kind t) (isAs : IsAs kind) : EndsWithText t.row := by
  obtain ⟨source, rfl⟩ := isAs
  obtain ⟨_, _, _, h⟩ := bind_run h
  split at h
  · obtain ⟨_, _, _, h⟩ := bind_run h
    split at h
    · obtain ⟨_, _, _, h⟩ := bind_run h
      obtain ⟨_, _, clause, last⟩ := bind_run h
      obtain ⟨same, rfl⟩ := pure_run last
      exact sourceClause_run clause
    · obtain ⟨_, _, _, last⟩ := bind_run h
      cases (pure_run last).1
  · obtain ⟨_, _, _, h⟩ := bind_run h
    obtain ⟨_, _, _, h⟩ := bind_run h
    split at h
    · obtain ⟨_, _, _, last⟩ := bind_run h
      cases (pure_run last).1
    · obtain ⟨_, _, _, last⟩ := bind_run h
      cases (pure_run last).1

theorem exportOther_as (h : (exportOther c).run r s = .found kind t) (isAs : IsAs kind) : EndsWithText t.row := by
  obtain ⟨source, rfl⟩ := isAs
  obtain ⟨_, _, _, h⟩ := bind_run h
  split at h
  · exact exportClause_as h ⟨source, rfl⟩
  · obtain ⟨_, _, _, h⟩ := bind_run h
    split at h
    · cases exportDefault_kind _ _ _ h
    · obtain ⟨class_, _, _, h⟩ := bind_run h
      split at h
      · obtain ⟨_, _, _, last⟩ := bind_run h
        cases (pure_run last).1
      · obtain ⟨function, _, _, h⟩ := bind_run h
        split at h
        · obtain ⟨_, _, _, h⟩ := bind_run h
          obtain ⟨_, _, _, h⟩ := bind_run h
          obtain ⟨_, _, _, h⟩ := bind_run h
          obtain ⟨_, _, _, last⟩ := bind_run h
          cases (pure_run last).1
        · obtain ⟨constants, _, _, h⟩ := bind_run h
          split at h
          · obtain ⟨_, _, _, last⟩ := bind_run h
            cases (pure_run last).1
          · obtain ⟨_, _, _, h⟩ := bind_run h
            obtain ⟨_, _, _, h⟩ := bind_run h
            split at h
            · obtain ⟨_, _, _, last⟩ := bind_run h
              cases (pure_run last).1
            · exact exportClause_as h ⟨source, rfl⟩

theorem exportDeclaration_as (h : (exportDeclaration c).run r s = .found kind t) (isAs : IsAs kind) :
    EndsWithText t.row := by
  obtain other | other | ⟨u, run⟩ := exportDeclaration_cases h
  · obtain ⟨_, rfl⟩ := isAs
    cases other
  · obtain ⟨_, rfl⟩ := isAs
    cases other
  · exact exportOther_as run isAs

theorem expectWord_run {p : Lexeme → Bool} {word : String} (h : (expectWord p).run r s = .found word t) :
    ∃ token, wordOf? token.lexeme = some word ∧ s.rest = token :: t.rest ∧ t.built = .leaf token :: s.built := by
  obtain ⟨next, u, lexeme, h⟩ := bind_run h
  obtain ⟨found, _, peeked, same⟩ := bind_run lexeme
  obtain ⟨rfl, rfl⟩ := peek_run peeked
  obtain ⟨rfl, rfl⟩ := pure_run same
  split at h
  · next text isWord =>
    obtain ⟨_, _, first, last⟩ := bind_run h
    obtain ⟨rfl, rfl⟩ := pure_run last
    obtain ⟨token, rest, built⟩ := advance_run first
    refine ⟨token, ?_, rest, built⟩
    simp only [State.glimpse?, rest, Option.map_some, Option.bind_some] at isWord
    split at isWord
    · exact isWord
    · cases isWord
  · cases h

theorem importedName_kind : Answers r importedName fun specifier => ∃ imported binding,
    specifier = .named imported binding :=
  .bind fun _ => .bind fun _ => .bind fun _ =>
    .ite (.bind fun _ => .pure ⟨_, _, rfl⟩) (.bind fun _ => .pure ⟨_, _, rfl⟩)

/-- Whether none of some things that are taken from a module is what it exports by default. -/
def AreFurther (specifiers : List Specifier) : Prop := ∀ binding, .byDefault binding ∉ specifiers

theorem importedNames_kind : Answers r importedNames AreFurther := by
  intro s specifiers t h
  obtain ⟨_, u, _, h⟩ := bind_run h
  obtain ⟨seen, v, loop, h⟩ := bind_run h
  obtain ⟨_, _, _, last⟩ := bind_run h
  obtain ⟨rfl, _⟩ := pure_run last
  refine iterate_run (P := fun seen _ => AreFurther seen.1) (Q := fun seen _ => AreFurther seen.1)
    (fun seen s next t round kept => ?_) (fun seen s t _ kept => kept) loop (fun _ => List.not_mem_nil)
  obtain ⟨_, _, _, round⟩ := bind_run round
  split at round
  · cases (pure_run round).1
  · split at round
    · obtain ⟨_, _, _, last⟩ := bind_run round
      cases (pure_run last).1
      exact kept
    · obtain ⟨specifier, _, name, last⟩ := bind_run round
      obtain ⟨imported, binding, rfl⟩ := importedName_kind _ _ _ name
      cases (pure_run last).1
      intro binding' member
      rcases List.mem_append.mp member with earlier | last
      · exact kept binding' earlier
      · cases List.mem_singleton.mp last

theorem furtherSpecifiers_kind : Answers r furtherSpecifiers AreFurther := by
  refine .bind fun star => .ite (.bind fun _ => .bind fun _ => .pure ?_)
    (.bind fun braces => .ite importedNames_kind (.pure ?_))
  · intro binding member
    cases List.mem_singleton.mp member
  · exact fun binding => List.not_mem_nil

theorem importAfterDefault_run {name binding source : String}
    (h : (importAfterDefault name).run r s = .found (.importing [.byDefault binding] source) t) : name = binding := by
  obtain ⟨_, _, _, h⟩ := bind_run h
  split at h
  · cases aliasDeclaration_kind _ _ _ h
  · have behindComma {u : State} (h : (do
        let further ← furtherSpecifiers
        return .importing (.byDefault name :: further) (← sourceClause) : Parser ItemKind).run r u =
          .found (.importing [.byDefault binding] source) t) : name = binding := by
      obtain ⟨_, _, _, h⟩ := bind_run h
      obtain ⟨_, _, _, last⟩ := bind_run h
      cases (pure_run last).1
      rfl
    obtain ⟨_, _, _, h⟩ := bind_run h
    split at h
    · obtain ⟨_, _, _, h⟩ := bind_run h
      exact behindComma h
    · exact behindComma h

/-- What an import takes by default, it binds to a name that stands in it. -/
theorem importDeclaration_binds {binding source : String}
    (h : importDeclaration.run (reader isOpen depth) s = .found (.importing [.byDefault binding] source) t) :
    ∃ token ∈ t.row, token.lexeme = .name binding ∧ token.lexeme.isFreeName = true := by
  have behindType {u : State} (h : (do
      if ← headIs Lexeme.isFreeName then importAfterDefault (← bindingName)
      else
        let specifiers ← furtherSpecifiers
        return .importing specifiers (← sourceClause) : Parser ItemKind).run (reader isOpen depth) u =
          .found (.importing [.byDefault binding] source) t) :
      ∃ token ∈ t.row, token.lexeme = .name binding ∧ token.lexeme.isFreeName = true := by
    obtain ⟨_, _, test, h⟩ := bind_run h
    obtain ⟨rfl, found⟩ := headIs_run test
    split at h
    · next isFree =>
      obtain ⟨first, head, free⟩ := found isFree
      obtain ⟨name, v, word, h⟩ := bind_run h
      obtain ⟨token, isName, rest, built⟩ := expectWord_run word
      obtain rfl : token = first := by
        rw [rest] at head
        exact Option.some.inj head
      have moved : token ∈ v.row := by
        rw [State.row_of_leaf built]
        exact List.mem_append_right _ (List.mem_singleton_self token)
      have isBinding : token.lexeme = .name name := by
        cases eq : token.lexeme with
        | name text =>
          rw [eq] at isName
          exact congrArg Lexeme.name (Option.some.inj isName)
        | keyword | mark | number | text | regex | chunk =>
          rw [eq] at free
          cases free
      have leads := row_prefix h
      refine ⟨token, leads.subset moved, ?_, free⟩
      rw [isBinding, importAfterDefault_run h]
    · obtain ⟨specifiers, _, further, h⟩ := bind_run h
      obtain ⟨_, _, _, last⟩ := bind_run h
      cases (pure_run last).1
      exact absurd List.mem_cons_self (furtherSpecifiers_kind _ _ _ further binding)
  obtain ⟨_, _, _, h⟩ := bind_run h
  obtain ⟨_, _, _, h⟩ := bind_run h
  split at h
  · obtain ⟨_, _, _, h⟩ := bind_run h
    obtain ⟨_, _, _, last⟩ := bind_run h
    cases (pure_run last).1
  · obtain ⟨_, _, _, h⟩ := bind_run h
    split at h
    · obtain ⟨_, _, _, h⟩ := bind_run h
      exact behindType h
    · exact behindType h

end Grammar

/-- What the first tokens of an item must be. -/
structure Item.Opens (kind : ItemKind) (tokens : List Token) : Prop where
  noChunk : ∀ first ∈ tokens.head?, first.lexeme.isChunk = false
  keyword : kind ≠ .statement → ∃ first ∈ tokens.head?, first.lexeme = .keyword .import_ ∨
    first.lexeme = .keyword .export_
  exported : kind = .exportedDeclaration ∨ kind = .exportedDefault →
    ∃ first ∈ tokens.head?, first.lexeme = .keyword .export_
  byDefault : kind = .exportedDefault → ∃ first second, Grammar.IsDefaultWord second.lexeme ∧
    [first, second] <+: tokens

/-- What must stand further behind in an item. -/
structure Item.Holds (kind : ItemKind) (tokens : List Token) : Prop where
  byDefault : kind = .exportedDefault → ∃ keyword ∈ tokens, keyword.lexeme = .keyword .default_
  ends : Grammar.IsAs kind → Grammar.EndsWithText tokens
  binds : ∀ binding source, kind = .importing [.byDefault binding] source →
    ∃ name ∈ tokens, name.lexeme = .name binding ∧ name.lexeme.isFreeName = true

/-- An item as the grammar reads it. -/
structure Item.IsRead (item : Item) : Prop where
  opens : Item.Opens item.kind item.tree.leaves
  holds : Item.Holds item.kind item.tree.leaves
  headed : item.tree.isHeaded = true

theorem head_of_prefix {first : Token} {more tokens : List Token} (leads : first :: more <+: tokens) :
    first ∈ tokens.head? := by
  obtain ⟨rest, rfl⟩ := leads
  rfl

open Script.Parser in
theorem Grammar.itemRule_run {isOpen : Bool} {depth : Nat} {c : Context} {s t : State} {kind : ItemKind}
    (h : (itemRule c).run (reader isOpen depth) s = .found kind t) :
        ∃ tree, t.built = tree :: s.built ∧ Item.IsRead ⟨kind, tree⟩ := by
  obtain ⟨inner, run, rfl⟩ := node_run h
  have moves := moves_of_run run
  have leaves : (Tree.node .item inner.built.reverse).leaves = inner.row := by rw [Tree.leaves, State.row]
  have headed : (Tree.node .item inner.built.reverse).isHeaded = true := by
    simp [Tree.isHeaded, Tree.areHeaded_reverse, moves.headed rfl]
  suffices Item.Opens kind inner.row ∧ Item.Holds kind inner.row from
    ⟨_, rfl, leaves.symm ▸ this.1, leaves.symm ▸ this.2, headed⟩
  have noChunk := moves.begun rfl
  obtain ⟨_, _, test, run⟩ := bind_run run
  obtain ⟨rfl, _⟩ := headIs_run test
  split at run
  · obtain ⟨first, isExport, leads, byDefault⟩ := exportDeclaration_run run
    have head : first ∈ inner.row.head? := head_of_prefix leads
    refine ⟨⟨noChunk, fun _ => ⟨first, head, Or.inr isExport⟩, fun _ => ⟨first, head, isExport⟩, fun isDefault => ?_⟩,
      fun isDefault => exportDeclaration_default (isDefault ▸ run), exportDeclaration_as run,
      fun _ _ isImport => absurd isImport (exportDeclaration_kind run _ _)⟩
    obtain ⟨second, word, leads⟩ := byDefault isDefault
    exact ⟨first, second, word, leads⟩
  · obtain ⟨_, _, test, run⟩ := bind_run run
    obtain ⟨rfl, _⟩ := headIs_run test
    obtain ⟨_, _, test, run⟩ := bind_run run
    obtain rfl := nextTwo_run test
    split at run
    · have noExport : kind ≠ .exportedDeclaration ∧ kind ≠ .exportedDefault ∧ ¬IsAs kind := by
        rcases importDeclaration_kind _ _ _ run with rfl | ⟨_, _, rfl⟩ <;> simp [IsAs]
      have binds : ∀ binding source, kind = .importing [.byDefault binding] source →
          ∃ name ∈ inner.row, name.lexeme = .name binding ∧ name.lexeme.isFreeName = true := by
        rintro binding source rfl
        exact importDeclaration_binds run
      obtain ⟨_, u, atFirst, more⟩ := bind_run run
      obtain ⟨first, isImport, _, built⟩ := expect_run atFirst
      have head : first ∈ inner.row.head? := head_of_prefix (State.row_of_leaf built ▸ row_prefix more)
      refine
        ⟨⟨noChunk, fun _ => ⟨first, head, Or.inl (by simpa using isImport)⟩, fun exported => ?_, fun isDefault => ?_⟩,
        fun isDefault => absurd isDefault noExport.2.1, fun isAs => absurd isAs noExport.2.2, binds⟩
      · exact (exported.elim noExport.1 noExport.2.1).elim
      · exact absurd isDefault noExport.2.1
    · obtain ⟨_, _, _, run⟩ := bind_run run
      obtain ⟨rfl, _⟩ := pure_run run
      exact ⟨⟨noChunk, fun other => absurd rfl other,
        fun exported => by simp at exported, fun isDefault => by cases isDefault⟩,
        fun isDefault => (by cases isDefault), by simp [IsAs], fun _ _ isImport => (by cases isImport)⟩

namespace Module

/-- Kinds and trees that belong together. -/
def Pair (kinds : List ItemKind) (built : List Tree) : Prop :=
  List.Forall₂ (fun kind tree => Item.IsRead ⟨kind, tree⟩) kinds built

open Script.Parser in
theorem itemsParser_run {isOpen : Bool} {depth : Nat} {s t : State} {kinds : List ItemKind}
    (h : itemsParser.run (Grammar.reader isOpen (depth + 1)) s = .found kinds t) (fresh : s.built = []) :
    Pair kinds t.built ∧ t.rest = [] := by
  refine iterate_run (P := fun kinds s => Pair kinds s.built) (Q := fun kinds t => Pair kinds t.built ∧ t.rest = [])
    (fun kinds s next t round pair => ?_) (fun kinds s t round pair => ?_) h (fresh ▸ .nil)
  · obtain ⟨_, _, test, round⟩ := bind_run round
    obtain ⟨rfl, _⟩ := atEnd_run test
    split at round
    · cases (pure_run round).1
    · obtain ⟨kind, _, item, last⟩ := bind_run round
      obtain ⟨same, rfl⟩ := pure_run last
      cases same
      obtain ⟨tree, built, isRead⟩ := Grammar.itemRule_run item
      exact built ▸ .cons isRead pair
  · obtain ⟨_, _, test, round⟩ := bind_run round
    obtain ⟨rfl, found⟩ := atEnd_run test
    split at round
    · next atEnd =>
      obtain ⟨_, rfl⟩ := pure_run round
      exact ⟨pair, found atEnd⟩
    · obtain ⟨_, _, _, last⟩ := bind_run round
      cases (pure_run last).1

theorem Pair.isRead {kinds : List ItemKind} {built : List Tree} (pair : Pair kinds built) :
    ∀ item ∈ List.zipWith Item.mk kinds built, item.IsRead := by
  induction pair with
  | nil =>
    intro item member
    cases member
  | cons first _ ih =>
    intro item member
    rcases List.mem_cons.mp member with rfl | later
    · exact first
    · exact ih item later

theorem Pair.trees {kinds : List ItemKind} {built : List Tree} (pair : Pair kinds built) :
    (List.zipWith Item.mk kinds built).map Item.tree = built := by
  induction pair with
  | nil => rfl
  | cons _ _ ih => rw [List.zipWith_cons_cons, List.map_cons, ih]

theorem itemsOf?_run {tokens : List Token} {items : List Item} (h : itemsOf? tokens = some items) :
    ∃ kinds t, itemsParser.run (Grammar.reader false (depthFor tokens)) ⟨[], tokens⟩ = .found kinds t ∧
      items = (List.zipWith Item.mk kinds t.built).reverse := by
  unfold itemsOf? at h
  split at h
  · next kinds t run =>
    cases h
    exact ⟨kinds, t, run, rfl⟩
  · cases h

theorem text_of_parse {source : List Char} {m : Module} (h : parse? source = some m) :
    m.text = withoutByteOrderMark source := by
  unfold parse? at h
  simp only at h
  split at h
  · obtain ⟨_, _, rfl⟩ := Option.map_eq_some_iff.mp h
    rfl
  · cases h

/-- The items of a module are read from the tokens of its text, and hold all of them. -/
theorem parse_spec {source : List Char} {m : Module} (h : parse? source = some m) :
    Lexer.tokenize? m.text = some m.tokens ∧ ∀ item ∈ m.items, item.IsRead := by
  unfold parse? at h
  simp only at h
  split at h
  · next tokens isTokens =>
    obtain ⟨items, isItems, rfl⟩ := Option.map_eq_some_iff.mp h
    obtain ⟨kinds, t, run, rfl⟩ := itemsOf?_run isItems
    obtain ⟨pair, atEnd⟩ := itemsParser_run run rfl
    obtain ⟨moved, rest, row⟩ := (Parser.moves_of_run run).moved
    have same : tokens = t.row := by
      rw [atEnd, List.append_nil] at rest
      simpa [State.row, Tree.leavesOf, ← rest] using row.symm
    have trees : t.row = (List.zipWith Item.mk kinds t.built).reverse.flatMap fun item => item.tree.leaves := by
      conv_lhs => rw [State.row, Tree.leavesOf_eq_flatMap, ← pair.trees, ← List.map_reverse, List.flatMap_map]
    refine ⟨isTokens.trans (congrArg some (same.trans trees)), fun item member => ?_⟩
    exact pair.isRead item (List.mem_reverse.mp member)
  · cases h

end Module

end ModuleBundler.Script
