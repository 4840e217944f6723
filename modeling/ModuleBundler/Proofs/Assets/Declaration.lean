import ModuleBundler.Assets
import ModuleBundler.Proofs.Script.Quoted
import ModuleBundler.Proofs.Script.Edits
import ModuleBundler.Proofs.Script.Stripping

namespace ModuleBundler

open Script

namespace Assets

/-- The tokens of a declaration that begins at a place. -/
def constantTokens (binding content : String) (place : Nat) (broken : Bool) : List Token :=
  let behind := place + 6 + binding.length
  let stop := behind + 3 + (Text.quote content.toList).length
  [⟨.keyword .const_, place, place + 5, broken⟩, ⟨.name binding, place + 6, behind, false⟩,
    ⟨.mark (.assign .plain), behind + 1, behind + 2, false⟩, ⟨.text content, behind + 3, stop, false⟩,
    ⟨.mark .semicolon, stop, stop + 1, false⟩]

/-- The statement that a declaration is read as. -/
def constantStatement (binding content : String) (place : Nat) (broken : Bool) : Tree :=
  let leaves := (constantTokens binding content place broken).map Tree.leaf
  .node .statement [.node .variableDeclaration
    (leaves.take 1 ++ [.node .declarator ((leaves.drop 1).take 3)] ++ leaves.drop 4)]

variable {binding content : String} {place depth : Nat} {broken : Bool} {more : List Token}

/-- What is declared is no enumeration, since nothing is bound to `enum`. -/
theorem atConstantEnum_run (other : binding ≠ "enum") :
    Grammar.atConstantEnum.run (Grammar.reader false (depth + 1))
      ⟨[], constantTokens binding content place broken ++ more⟩ =
      .found false ⟨[], constantTokens binding content place broken ++ more⟩ := by
  have test : Grammar.atConstantEnum.run (Grammar.reader false (depth + 1))
      ⟨[], constantTokens binding content place broken ++ more⟩ =
        .found (decide (Lexeme.name binding = .name "enum"))
          ⟨[], constantTokens binding content place broken ++ more⟩ := rfl
  rw [test, decide_eq_false (by simpa using other)]

theorem statement_run (other : binding ≠ "enum") :
    (Grammar.statementRule {} true).run (Grammar.reader false (depth + 6))
        ⟨[], constantTokens binding content place broken ++ more⟩ =
      .found () ⟨[constantStatement binding content place broken], more⟩ := by
  rw [Grammar.statementRule, Parser.run, Parser.run_bind, atConstantEnum_run other]
  rfl

/-- The declaration is read as a statement, and nothing of what follows it. -/
theorem readItem_constant (other : binding ≠ "enum") (deep : 8 ≤ depth) :
    readItem (Grammar.reader false depth) (constantTokens binding content place broken ++ more) =
      some (⟨.statement, .node .item [constantStatement binding content place broken]⟩, more) := by
  obtain ⟨depth, rfl⟩ := Nat.exists_eq_add_of_le' deep
  have item : (Grammar.item {}).run (Grammar.reader false (depth + 8))
    ⟨[], constantTokens binding content place broken ++ more⟩ =
      (((Grammar.statementRule {} true).run (Grammar.reader false (depth + 6))
        ⟨[], constantTokens binding content place broken ++ more⟩).andThen fun _ t =>
          .found ItemKind.statement t).andThen
          fun kind t => .found kind ⟨[.node .item t.built.reverse], t.rest⟩ := rfl
  rw [readItem, item, statement_run other]
  rfl

section Text

open Lexer

variable {s : Situation} {text cs rest : List Char} {position blank n : Nat} {lexeme : Lexeme} {c : Char}

/-- Where the lexer is behind a token of a line, outside of templates. -/
def IsInLine (s : Situation) : Prop := s.inTemplate = false ∧ s.previous.isNone = false

theorem isInLine_after (outside : s.inTemplate = false) {t : Token} (noLead : ¬Situation.LeadsIn t.lexeme) :
    IsInLine (s.after t) := by
  refine ⟨Situation.outside_after outside noLead, ?_⟩
  rw [Situation.previous_after]
  rfl

theorem scan_spaced (inLine : IsInLine s) (noBlank : Text.isScriptBlank c = false) (noComment : c ≠ '/' ∧ c ≠ '<')
    (isLexeme : lexeme? s.operandNext (c :: cs) = some (lexeme, n)) (read : List Token) :
    scan 0 position s read (' ' :: c :: cs) =
      scan 0 (position + 1 + n) (s.after ⟨lexeme, position + 1, position + 1 + n, false⟩)
        (⟨lexeme, position + 1, position + 1 + n, false⟩ :: read) ((c :: cs).drop n) := by
  have gap : trivia .between s.previous.isNone (' ' :: c :: cs) = some (1, false) := by
    rw [inLine.2]
    exact trivia_space noBlank noComment
  rw [scan_token inLine.1 gap isLexeme, Nat.add_comm 1 n, List.drop_succ_cons]

theorem scan_solid (inLine : IsInLine s) (noBlank : Text.isScriptBlank c = false) (noComment : c ≠ '/' ∧ c ≠ '<')
    (isLexeme : lexeme? s.operandNext (c :: cs) = some (lexeme, n)) (read : List Token) :
    scan 0 position s read (c :: cs) =
      scan 0 (position + n) (s.after ⟨lexeme, position, position + n, false⟩)
        (⟨lexeme, position, position + n, false⟩ :: read) ((c :: cs).drop n) := by
  have gap : trivia .between s.previous.isNone (c :: cs) = some (0, false) := by
    rw [inLine.2]
    exact trivia_solid noBlank noComment
  rw [scan_token inLine.1 gap isLexeme, Nat.zero_add, Nat.add_zero]

theorem endsWord_space (rest : List Char) : EndsWord (' ' :: rest) := by
  intro d here
  cases here
  decide

theorem lexeme?_quote (operandNext : Bool) (content : String) (rest : List Char) :
    lexeme? operandNext (Text.quote content.toList ++ rest) =
        some (.text content, (Text.quote content.toList).length) := by
  have read := readString_quote content.toList rest
  rw [Text.quote, List.cons_append] at read ⊢
  rw [lexeme?, if_neg (by decide), if_pos (by decide), read, Option.map_some, String.ofList_toList]

theorem lexeme?_equals (operandNext : Bool) (rest : List Char) :
    lexeme? operandNext ('=' :: ' ' :: rest) = some (.mark (.assign .plain), 1) := rfl

theorem declaration_append (binding content : String) (rest : List Char) :
    declaration binding content ++ rest = 'c' :: 'o' :: 'n' :: 's' :: 't' ::
      ' ' :: (binding.toList ++ ' ' :: '=' :: ' ' :: (Text.quote content.toList ++ ';' :: rest)) := by
  have const_ : "const ".toList = ['c', 'o', 'n', 's', 't', ' '] := by decide
  have equals : " = ".toList = [' ', '=', ' '] := by decide
  unfold declaration
  simp only [const_, equals, List.append_assoc, List.cons_append, List.nil_append]

theorem length_declaration (binding content : String) :
    (declaration binding content).length = 5 + 1 + binding.length + 1 + 1 +
        1 + (Text.quote content.toList).length + 1 := by
  have whole := congrArg List.length (declaration_append binding content [])
  simp only [List.append_nil, List.length_cons, List.length_append, List.length_nil, String.length_toList] at whole
  omega

/-- The lexer passes over a declaration and has read its tokens, whatever follows. -/
theorem scan_declaration (read : List Token) (isName : IsName binding) (outside : s.inTemplate = false)
    (gap : trivia .between s.previous.isNone text = some (blank, broken))
    (here : text.drop blank = declaration binding content ++ rest) :
    let tokens := constantTokens binding content (position + blank) broken
    scan 0 position s read text =
      scan 0 (position + blank + (declaration binding content).length) (tokens.foldl Situation.after s)
        (tokens.reverse ++ read)
        rest := by
  obtain ⟨c, letters, spelled⟩ := List.exists_cons_of_ne_nil isName.nonempty
  have starts : Text.isNameStart c = true := by
    have areLetters := isName.letters
    rw [spelled] at areLetters
    exact areLetters.1
  have noBlank : Text.isScriptBlank c = false := by
    by_contra blank
    have noStart := not_isNameStart_of_blank (by simpa using blank)
    rw [starts] at noStart
    cases noStart
  have noComment : c ≠ '/' ∧ c ≠ '<' := by
    constructor
    all_goals
      rintro rfl
      revert starts
      decide
  rw [declaration_append] at here
  generalize behindText : ';' :: rest = last at here
  generalize behindName : ' ' :: '=' :: ' ' :: (Text.quote content.toList ++ last) = equals at here
  have afterConst : text.drop (blank + 5) = ' ' :: c :: (letters ++ equals) := by
    rw [← List.drop_drop, here, spelled]
    rfl
  have afterName : (c :: (letters ++ equals)).drop binding.length = equals := by
    have length : binding.length = (c :: letters).length := by rw [← spelled, String.length_toList]
    rw [length, ← List.cons_append, List.drop_left]
  have isConst : lexeme? s.operandNext (text.drop blank) = some (.keyword .const_, 5) := by
    rw [here]
    exact lexeme?_keyword .const_ s.operandNext (endsWord_space _)
  have isBinding (operandNext : Bool) :
      lexeme? operandNext (c :: (letters ++ equals)) = some (.name binding, binding.length) := by
    have name := lexeme?_name operandNext isName (behindName ▸ endsWord_space _)
    rwa [spelled] at name
  have isText (operandNext : Bool) := lexeme?_quote operandNext content last
  obtain ⟨inner, quoted⟩ : ∃ inner, Text.quote content.toList = '"' :: inner := ⟨_, rfl⟩
  have afterText : ('"' :: (inner ++ last)).drop (Text.quote content.toList).length = last := by
    rw [quoted, ← List.cons_append, List.drop_left]
  rw [quoted, List.cons_append] at behindName
  rw [quoted, List.cons_append, ← quoted] at isText
  have inLine1 : IsInLine (s.after ⟨.keyword .const_, position + blank, position + blank + 5, broken⟩) :=
    isInLine_after outside (by simp [Situation.LeadsIn])
  rw [scan_token outside gap isConst, afterConst, scan_spaced inLine1 noBlank noComment (isBinding _),
    afterName, ← behindName]
  generalize start : position + blank + 5 + 1 = name at *
  have inLine2 := isInLine_after inLine1.1 (t :=
    ⟨.name binding, name, name + binding.length, false⟩) (by simp [Situation.LeadsIn])
  rw [scan_spaced inLine2 (by decide) (by decide) (lexeme?_equals _ _), List.drop_succ_cons, List.drop_zero]
  generalize place : name + binding.length + 1 = behind at *
  have inLine3 := isInLine_after inLine2.1 (t :=
    ⟨.mark (.assign .plain), behind, behind + 1, false⟩) (by simp [Situation.LeadsIn])
  rw [scan_spaced inLine3 (by decide) (by decide) (isText _), afterText, ← behindText]
  generalize stop : behind + 1 + 1 + (Text.quote content.toList).length = last at *
  have inLine4 := isInLine_after inLine3.1 (t :=
    ⟨.text content, behind + 1 + 1, last, false⟩) (by simp [Situation.LeadsIn])
  rw [scan_solid inLine4 (by decide) (by decide) (lexeme_semicolon _ _), List.drop_succ_cons, List.drop_zero]
  have length := length_declaration binding content
  have total : position + blank + (declaration binding content).length = last + 1 := by omega
  rw [total]
  subst stop place start
  rfl

/-- The tokens of a declaration lead into no template. -/
theorem outside_constantTokens (outside : s.inTemplate = false) (place : Nat) :
    ((constantTokens binding content place broken).foldl Situation.after s).inTemplate = false := by
  have stays (tokens : List Token) (noLead : ∀ t ∈ tokens, ¬Situation.LeadsIn t.lexeme) {u : Situation}
      (outside : u.inTemplate = false) : (tokens.foldl Situation.after u).inTemplate = false := by
    induction tokens generalizing u with
    | nil => exact outside
    | cons t tokens ih =>
      exact ih (fun v later => noLead v (List.mem_cons_of_mem _ later))
        (Situation.outside_after outside (noLead t List.mem_cons_self))
  refine stays _ (fun t member => ?_) outside
  simp only [constantTokens, List.mem_cons, List.not_mem_nil, or_false] at member
  rcases member with rfl | rfl | rfl | rfl | rfl <;> simp [Situation.LeadsIn]

end Text

/-- Whether a text is read as a statement that binds a name to a text. Outside of templates, behind whatever white
space and comments, and whatever follows, the lexer reads the tokens of such a statement from it and the grammar
the statement from these. -/
def Binds (code : List Char) (binding content : String) : Prop :=
  ∀ (s : Lexer.Situation) (position blank : Nat) (broken : Bool) (text rest : List Char), s.inTemplate = false →
    Lexer.trivia .between s.previous.isNone text = some (blank, broken) → text.drop blank = code ++ rest →
      let tokens := constantTokens binding content (position + blank) broken
      (∀ read, Lexer.scan 0 position s read text =
        Lexer.scan 0 (position + blank + code.length) (tokens.foldl Lexer.Situation.after s)
          (tokens.reverse ++ read) rest) ∧
      (tokens.foldl Lexer.Situation.after s).inTemplate = false ∧
      ∀ more, readItem (Grammar.reader false (Module.depthFor (tokens ++ more))) (tokens ++ more) =
        some (⟨.statement, .node .item [constantStatement binding content (position + blank) broken]⟩, more)

theorem binds_declaration (isName : Lexer.IsName binding) (other : binding ≠ "enum") :
    Binds (declaration binding content) binding content := by
  intro s position blank broken text rest outside gap here tokens
  refine ⟨fun read => scan_declaration read isName outside gap here, outside_constantTokens outside _, fun more => ?_⟩
  exact readItem_constant other (Nat.le_trans (by decide) (Nat.le_add_left 32 _))

end Assets

end ModuleBundler
