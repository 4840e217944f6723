import ModuleBundler.Proofs.Script.Edits

/-!
Whether the wiring of a module is taken out.

An item is read from its tokens, but what is taken out of it is searched for in the text. The search passes over white
space only. So a comment between two tokens leaves wiring in the script where the search has to find both of them:
`export` and `default`, and an export under one name with its semicolon.
-/

namespace ModuleBundler.Script

open Text (Edit)

/-- The word that an item declares by default with. -/
def Item.defaultKeyword? (item : Item) : Option Token :=
  item.tree.leaves.find? fun t => t.lexeme = .keyword .default_

/-- The tokens of an item that mean nothing in a script. -/
def Item.wiringTokens (item : Item) : List Token :=
  match item.kind with
  | .importing .. | .reexporting _ | .reexportingAs _ | .exportList => item.tree.leaves
  | .exportedDeclaration | .exportedConstants => item.tree.leaves.take 1
  | .exportedDefault => item.tree.leaves.take 1 ++ item.defaultKeyword?.toList
  | .statement | .aliasing => []

/-- Whether nothing but white space stands between two places. -/
def OnlyBlank (text : List Char) (lo hi : Nat) : Prop :=
  ∀ p, lo ≤ p → p < hi → ∃ c, text[p]? = some c ∧ Text.isBlank c = true

/-- Whether nothing but white space stands between the keywords of a default export. -/
def Item.HasBlankKeywords (text : List Char) (item : Item) : Prop :=
  ∀ first ∈ item.tree.leaves.head?, ∀ keyword ∈ item.defaultKeyword?, OnlyBlank text first.stop keyword.start

/-- Whether the search for what is taken out of an item passes over nothing but white space. -/
def Item.IsRemovable (text : List Char) (item : Item) : Prop :=
  match item.kind with
  | .exportedConstants => False
  | .exportedDefault => item.HasBlankKeywords text
  | .reexportingAs _ => ∀ t ∈ item.tree.leaves, item.stop ≤ t.start → OnlyBlank text item.stop t.start
  | _ => True

namespace Module

/-- Whether an edit of a module takes out all of some tokens. -/
def Removes (m : Module) (tokens : List Token) : Prop :=
  ∃ e ∈ m.edits, e.replacement = [] ∧ ∀ t ∈ tokens, e.span.start ≤ t.start ∧ t.stop ≤ e.span.stop

variable {m : Module} {item : Item} {before after : List Item} {e : Edit} {source : List Char} {first u : Token}
  {back tokens : List Token}

section Blank

variable {text : List Char} {position : Nat} {s : Lexer.Situation}

theorem onlyBlank_blankLength (text : List Char) (position : Nat) :
    OnlyBlank text position (position + Text.blankLength (text.drop position)) := by
  intro p lower upper
  have less : p - position < Text.blankLength (text.drop position) := by omega
  obtain ⟨c, here, isBlank⟩ := Lexer.isBlank_of_lt_blankLength less
  have place : position + (p - position) = p := by omega
  rw [List.getElem?_drop, place] at here
  exact ⟨c, here, isBlank⟩

/-- White space goes up to a token exactly if nothing else stands before it. -/
theorem onlyBlank_iff (reads : Lexer.Reads text position s (u :: back)) (outside : s.inTemplate = false) :
    OnlyBlank text position u.start ↔ u.start = position + Text.blankLength (text.drop position) := by
  constructor
  · intro blank
    have upper := (reads.blank_le outside).2 u List.mem_cons_self
    by_contra other
    obtain ⟨c, here, isBlank⟩ := blank (position + Text.blankLength (text.drop position)) (by omega) (by omega)
    rw [← List.getElem?_drop] at here
    have noBlank := Lexer.not_isBlank_blankLength here
    rw [isBlank] at noBlank
    cases noBlank
  · intro start
    rw [start]
    exact onlyBlank_blankLength text position

/-- No white space stands where a token does. -/
theorem not_onlyBlank_of_mem (reads : Lexer.Reads text position s tokens) (member : u ∈ tokens)
    (noChunk : u.lexeme.isChunk = false) {lo hi : Nat} (lower : lo ≤ u.start) (upper : u.start < hi) :
    ¬OnlyBlank text lo hi := by
  intro blank
  obtain ⟨c, here, isBlank⟩ := blank u.start lower upper
  have solid := (reads.isText member noChunk).1
  obtain ⟨bound, same⟩ := List.getElem?_eq_some_iff.mp here
  rw [List.drop_eq_getElem_cons bound, same] at solid
  have noScriptBlank := solid.1
  rw [Text.isScriptBlank, isBlank, Bool.true_or] at noScriptBlank
  cases noScriptBlank

end Blank

/-- An edit that takes a token of an item is made for the item, unless the token is a semicolon. -/
theorem editFor_of_covers (isRead : m.IsRead) (split : m.items = before ++ item :: after) (edit : e ∈ m.edits)
    (inside : first ∈ item.tree.leaves) (noChunk : first.lexeme.isChunk = false)
    (noSemicolon : first.lexeme ≠ .mark .semicolon) (starts : e.span.start ≤ first.start)
    (stops : first.stop ≤ e.span.stop) :
    EditFor m item e := by
  have member : first ∈ m.tokens := by
    rw [tokens_split split]
    simp [inside]
  have nonempty := (isRead.reads.isText member noChunk).2.pos
  obtain ⟨owner, owned, editFor⟩ := mem_edits.mp edit
  rw [split, List.mem_append, List.mem_cons] at owned
  rcases owned with earlier | rfl | later
  · -- all tokens behind the item that the edit is made for are left
    obtain ⟨front, others, same⟩ := List.append_of_mem earlier
    have split' : m.items = front ++ owner :: (others ++ item :: after) := by
      rw [split, same]
      simp
    obtain ⟨_, taken, back, cuts, _, behind⟩ := editFor.isEditOf isRead split'
    have inBack : first ∈ back := by
      refine behind first ?_ noSemicolon
      exact List.mem_flatMap.mpr ⟨item, by simp, inside⟩
    have clear := cuts.takes.clear first inBack
    omega
  · exact editFor
  · obtain ⟨front, others, same⟩ := List.append_of_mem later
    have split' : m.items = (before ++ item :: front) ++ owner :: others := by
      rw [split, same]
      simp
    obtain ⟨_, taken, back, cuts, own, _⟩ := editFor.isEditOf isRead split'
    obtain ⟨head, isHead, start⟩ := cuts.takes.starts
    obtain ⟨inFront, inBack, eq⟩ := List.append_of_mem inside
    have whole : m.tokens = (tokensOf before ++ inFront) ++ first :: (inBack ++ tokensOf after) := by
      rw [tokens_split split, eq]
      simp
    have isBehind : head ∈ inBack ++ tokensOf after := by
      refine List.mem_append_right _ (List.mem_flatMap.mpr ⟨owner, later, own head isHead⟩)
    have order := isRead.reads.le_start whole isBehind
    omega

/-- What an item begins with is taken out by an edit for its wiring or not at all. -/
theorem removes_iff_wiringEdits (isRead : m.IsRead) (member : item ∈ m.items) (other : item.kind ≠ .statement)
    (head : first ∈ item.tree.leaves.head?) (inside : first ∈ tokens) :
    m.Removes tokens ↔
      ∃ e ∈ wiringEdits m.text item, e.replacement = [] ∧ ∀ t ∈ tokens, e.span.start ≤ t.start ∧
          t.stop ≤ e.span.stop := by
  constructor
  · rintro ⟨e, edit, removes, covers⟩
    obtain ⟨before, after, split⟩ := List.append_of_mem member
    obtain ⟨first', head', word⟩ := (isRead.items item member).opens.keyword other
    obtain rfl := Option.mem_unique head head'
    have covered := covers first inside
    have editFor : EditFor m item e := by
      refine editFor_of_covers isRead split edit (List.mem_of_head? head) ?_ ?_ covered.1 covered.2
      · rcases word with isImport | isExport
        · rw [isImport]; rfl
        · rw [isExport]; rfl
      · rcases word with isImport | isExport <;> simp [*]
    rcases editFor with wiring | ⟨_, forwarding⟩
    · exact ⟨e, wiring, removes, covers⟩
    · obtain ⟨call, _, rfl⟩ := List.mem_map.mp forwarding
      cases removes
  · rintro ⟨e, wiring, removes, covers⟩
    exact ⟨e, mem_edits.mpr ⟨item, member, Or.inl wiring⟩, removes, covers⟩

theorem le_statementStop (text : List Char) (stop : Nat) : stop ≤ statementStop text stop := by
  unfold statementStop
  simp only
  split
  · exact Nat.le_add_right _ _
  · split <;> omega

theorem wiringEdits_of_isWiring (isWiring : item.kind.isWiring = true) :
    wiringEdits m.text item = [.remove item.start (statementStop m.text item.stop)] := by
  unfold wiringEdits
  cases kind : item.kind with
  | importing | reexporting | reexportingAs | exportList => rfl
  | statement | exportedDeclaration | exportedDefault | exportedConstants | aliasing =>
    rw [kind] at isWiring
    cases isWiring

theorem start_le_of_mem (isRead : m.IsRead) (member : item ∈ m.items) (head : first ∈ item.tree.leaves.head?)
    (inside : u ∈ item.tree.leaves) : item.start ≤ u.start := by
  obtain ⟨before, after, split⟩ := List.append_of_mem member
  obtain ⟨rest, leaves⟩ := List.head?_eq_some_iff.mp (Option.mem_def.mp head)
  have eq : m.tokens = tokensOf before ++ first :: (rest ++ tokensOf after) := by
    rw [tokens_split split, leaves, List.cons_append]
  have start := start_eq head
  rw [leaves, List.mem_cons] at inside
  rcases inside with rfl | later
  · omega
  · have order := isRead.reads.le_start eq (List.mem_append_left _ later)
    have within := (isRead.reads.within (show first ∈ m.tokens by simp [eq])).1
    omega

/-- All tokens of an item stop where its last one does. -/
theorem stop_le_of_mem (isRead : m.IsRead) (member : item ∈ m.items) {front : List Token} {w : Token}
    (leaves : item.tree.leaves = front ++ w :: back) (inside : u ∈ front ++ [w]) : u.stop ≤ w.stop := by
  obtain ⟨before, after, split⟩ := List.append_of_mem member
  have eq : m.tokens = (tokensOf before ++ front) ++ w :: (back ++ tokensOf after) := by
    rw [tokens_split split, leaves]
    simp
  rcases List.mem_append.mp inside with earlier | last
  · have order := isRead.reads.stop_le eq (List.mem_append_right _ earlier)
    have within := (isRead.reads.within (show w ∈ m.tokens by simp [eq])).1
    omega
  · rw [List.mem_singleton.mp last]

/-- What is wiring is taken out exactly if the edit for it goes up to its end. -/
theorem removes_leaves_iff (isRead : m.IsRead) (member : item ∈ m.items) (isWiring : item.kind.isWiring = true) :
    m.Removes item.tree.leaves ↔ ∀ t ∈ item.tree.leaves, t.stop ≤ statementStop m.text item.stop := by
  have other : item.kind ≠ .statement := by
    intro isStatement
    rw [isStatement] at isWiring
    cases isWiring
  obtain ⟨first, head, _⟩ := (isRead.items item member).opens.keyword other
  rw [removes_iff_wiringEdits isRead member other head (List.mem_of_head? head), wiringEdits_of_isWiring isWiring]
  constructor
  · rintro ⟨e, only, _, covers⟩ t inside
    obtain rfl := List.mem_singleton.mp only
    exact (covers t inside).2
  · intro covers
    refine ⟨_, List.mem_singleton_self _, rfl, fun t inside => ⟨?_, covers t inside⟩⟩
    exact start_le_of_mem isRead member head inside

/-- No token of an item goes on behind its tree. -/
theorem stop_le_tree_stop (isRead : m.IsRead) (member : item ∈ m.items) (inside : u ∈ item.tree.leaves) :
    u.stop ≤ item.tree.stop := by
  obtain ⟨front, last⟩ := stop_of_getLast (List.getLast?_eq_some_getLast (List.ne_nil_of_mem inside))
  rw [Tree.stop, List.getLast?_eq_some_getLast (List.ne_nil_of_mem inside)]
  exact stop_le_of_mem isRead member last (by rw [← last]; exact inside)

/-- A statement that goes up to its last token is taken out whole. -/
theorem removes_leaves (isRead : m.IsRead) (member : item ∈ m.items) (isWiring : item.kind.isWiring = true)
    (whole : item.stop = item.tree.stop) : m.Removes item.tree.leaves := by
  rw [removes_leaves_iff isRead member isWiring]
  intro t inside
  have covered := stop_le_tree_stop isRead member inside
  have after := le_statementStop m.text item.stop
  omega

/-- A semicolon is taken out with the statement before it exactly if only white space stands between them. -/
theorem covers_semicolon_iff {text : List Char} {w : Token} {s : Lexer.Situation}
    (reads : Lexer.Reads text w.stop s (u :: back))
    (outside : s.inTemplate = false) (isSemicolon : u.lexeme = .mark .semicolon)
    (opened : text[w.stop - 1]? ≠ some ';') :
    u.stop ≤ statementStop text w.stop ↔ OnlyBlank text w.stop u.start := by
  have inside : u ∈ u :: back := List.mem_cons_self
  obtain ⟨_, isLexeme⟩ := reads.isLexeme inside (by rw [isSemicolon]; rfl) (by simp [isSemicolon])
  rw [isSemicolon] at isLexeme
  obtain ⟨length, here⟩ := Lexer.eq_semicolon isLexeme
  rw [List.getElem?_drop, Nat.add_zero] at here
  rw [onlyBlank_iff reads outside, statementStop, if_neg opened]
  simp only
  constructor
  · intro covered
    by_contra other
    have upper := (reads.blank_le outside).2 u inside
    split at covered
    · next found =>
      obtain ⟨v, rest, same, start, _⟩ := reads.head_at outside found Lexer.isPlain_semicolon
      cases same
      exact other start
    · omega
  · intro start
    rw [if_pos (by rw [← start, here])]
    omega

/-- An export under one name stops behind the string that it ends with. -/
theorem stop_eq_of_endsWithText {front : List Token} {literal : Token} {value : String} {semicolon : Option Token}
    (isAs : Grammar.IsAs item.kind) (leaves : item.tree.leaves = front ++ literal :: semicolon.toList)
    (isText : literal.lexeme = .text value) (isSemicolon : ∀ t ∈ semicolon, t.lexeme = .mark .semicolon) :
    item.stop = literal.stop := by
  obtain ⟨source, isAs⟩ := isAs
  have none : semicolon.toList.filter (fun t => t.lexeme ≠ .mark .semicolon) = [] := by
    rw [List.filter_eq_nil_iff]
    intro t inside
    simpa using isSemicolon t (Option.mem_toList.mp inside)
  have kept : item.tree.leaves.filter (fun t => t.lexeme ≠ .mark .semicolon) =
      front.filter (fun t => t.lexeme ≠ .mark .semicolon) ++ [literal] := by
    rw [leaves, List.filter_append, List.filter_cons_of_pos (by simp [isText]), none]
  unfold Item.stop
  simp only [isAs]
  rw [Item.stopBeforeSemicolon, kept, List.getLast?_concat]

theorem removes_reexportingAs_iff (isRead : m.IsRead) (member : item ∈ m.items) (isAs : Grammar.IsAs item.kind) :
    m.Removes item.tree.leaves ↔ ∀ t ∈ item.tree.leaves, item.stop ≤ t.start →
        OnlyBlank m.text item.stop t.start := by
  have isWiring : item.kind.isWiring = true := by
    obtain ⟨source, isAs⟩ := isAs
    rw [isAs]
    rfl
  obtain ⟨front, literal, value, semicolon, leaves, isText, isSemicolon⟩ := (isRead.items item member).holds.ends isAs
  have stop := stop_eq_of_endsWithText isAs leaves isText isSemicolon
  obtain ⟨earlier, later, split⟩ := List.append_of_mem member
  have eq : m.tokens = (tokensOf earlier ++ front) ++ literal :: (semicolon.toList ++ tokensOf later) := by
    rw [tokens_split split, leaves]
    simp
  have noChunk : literal.lexeme.isChunk = false := by rw [isText]; rfl
  have atLiteral : literal ∈ m.tokens := by simp [eq]
  have nonempty := (isRead.reads.isText atLiteral noChunk).2.pos
  have noSemicolon : m.text[literal.stop - 1]? ≠ some ';' := by
    obtain ⟨_, isLexeme⟩ := isRead.reads.isLexeme atLiteral noChunk (by simp [isText])
    rw [isText] at isLexeme
    obtain ⟨quote, here, isQuote⟩ := Lexer.closes_text isLexeme
    have place : literal.start + (literal.stop - literal.start - 1) = literal.stop - 1 := by omega
    rw [List.getElem?_drop, place] at here
    rw [here]
    rcases isQuote with rfl | rfl <;> simp
  obtain ⟨s, outside, reads⟩ := outside_behind isRead eq noChunk (by simp [isText, Lexer.Situation.LeadsIn])
  rw [removes_leaves_iff isRead member isWiring]
  refine forall₂_congr fun t inside => ?_
  rw [stop]
  rw [leaves, List.append_cons, List.mem_append] at inside
  rcases inside with front | isLast
  · -- what stands up to the string is taken out in any case
    have covered : t.stop ≤ literal.stop := stop_le_of_mem isRead member leaves front
    have after := le_statementStop m.text literal.stop
    have before : t.start < literal.stop := by
      rcases List.mem_append.mp front with earlier | last
      · have order := isRead.reads.stop_le eq (List.mem_append_right _ earlier)
        have within := (isRead.reads.within (show t ∈ m.tokens by simp [eq, earlier])).1
        omega
      · rw [List.mem_singleton.mp last]
        omega
    exact ⟨fun _ behind => by omega, fun _ => by omega⟩
  · obtain rfl := Option.mem_toList.mp isLast
    have behind : literal.stop ≤ t.start := isRead.reads.le_start eq (by simp)
    rw [covers_semicolon_iff reads outside (isSemicolon t rfl) noSemicolon]
    exact ⟨fun blank _ => blank, fun blank => blank behind⟩

/-- An item that is exported, with its first two tokens and what is read behind the first one. -/
theorem exported_begins (isRead : m.IsRead) (split : m.items = before ++ item :: after)
    (head : first ∈ item.tree.leaves.head?) (isExport : first.lexeme = .keyword .export_) :
    Lexer.IsText first.lexeme (m.text.drop first.start) (first.stop - first.start) ∧ first.start ≤ first.stop ∧
      ∃ s : Lexer.Situation, s.inTemplate = false ∧
        Lexer.Reads m.text first.stop s (item.tree.leaves.tail ++ tokensOf after) := by
  obtain ⟨rest, leaves⟩ := List.head?_eq_some_iff.mp (Option.mem_def.mp head)
  have eq : m.tokens = tokensOf before ++ first :: (rest ++ tokensOf after) := by
    rw [tokens_split split, leaves, List.cons_append]
  have noChunk : first.lexeme.isChunk = false := by rw [isExport]; rfl
  have member : first ∈ m.tokens := by simp [eq]
  have behind := outside_behind isRead eq noChunk (by simp [isExport, Lexer.Situation.LeadsIn])
  rw [leaves, List.tail_cons]
  exact ⟨(isRead.reads.isText member noChunk).2, (isRead.reads.within member).1, behind⟩

/-- The keyword of an exported declaration is taken out. -/
theorem removes_export (isRead : m.IsRead) (member : item ∈ m.items) (kind : item.kind = .exportedDeclaration) :
    m.Removes (item.tree.leaves.take 1) := by
  obtain ⟨first, head, isExport⟩ := (isRead.items item member).opens.exported (Or.inl kind)
  obtain ⟨before, after, split⟩ := List.append_of_mem member
  obtain ⟨isText, order, s, outside, reads⟩ := exported_begins isRead split head isExport
  obtain ⟨rest, leaves⟩ := List.head?_eq_some_iff.mp (Option.mem_def.mp head)
  have found := Lexer.keywordsStop?_keyword isText isExport order []
  rw [keywordsStop?, ← start_eq head] at found
  have edit :
      .remove item.start (first.stop + Text.blankLength (m.text.drop first.stop)) ∈ wiringEdits m.text item := by
    unfold wiringEdits keywordEdit
    simp only [kind]
    rw [show "export" = Keyword.export_.spelling from rfl, found]
    exact List.mem_singleton_self _
  refine ⟨_, mem_edits.mpr ⟨item, member, Or.inl edit⟩, rfl, fun t inside => ?_⟩
  rw [leaves, List.take_succ_cons, List.take_zero] at inside
  obtain rfl := List.mem_singleton.mp inside
  exact ⟨Nat.le_of_eq (start_eq head), Nat.le_add_right _ _⟩

/-- The keyword of an exported enumeration of constants stays. -/
theorem not_removes_constants (isRead : m.IsRead) (member : item ∈ m.items) (kind : item.kind = .exportedConstants) :
    ¬m.Removes (item.tree.leaves.take 1) := by
  have other : item.kind ≠ .statement := by simp [kind]
  obtain ⟨first, head, _⟩ := (isRead.items item member).opens.keyword other
  have inside : first ∈ item.tree.leaves.take 1 := by
    obtain ⟨rest, leaves⟩ := List.head?_eq_some_iff.mp (Option.mem_def.mp head)
    simp [leaves]
  rw [removes_iff_wiringEdits isRead member other head inside]
  rintro ⟨e, wiring, _⟩
  simp [wiringEdits, kind] at wiring

/-- Only white space stands before the word that an item declares by default with exactly if it is the second word. -/
theorem onlyBlank_default_iff {keyword second : Token} {more : List Token} {s : Lexer.Situation}
    (leaves : item.tree.leaves = first :: second :: more) (isExport : first.lexeme = .keyword .export_)
    (reads : Lexer.Reads m.text first.stop s (second :: (more ++ back))) (outside : s.inTemplate = false)
    (found : item.defaultKeyword? = some keyword) :
    OnlyBlank m.text first.stop keyword.start ↔ second.lexeme = .keyword .default_ ∧
      second.start = first.stop + Text.blankLength (m.text.drop first.stop) := by
  have isDefault : keyword.lexeme = .keyword .default_ := by simpa using List.find?_some found
  rw [Item.defaultKeyword?, leaves, List.find?_cons_of_neg (by simp [isExport])] at found
  constructor
  · intro blank
    have inside : keyword ∈ second :: more := List.mem_of_find?_eq_some found
    rcases List.mem_cons.mp inside with rfl | later
    · exact ⟨isDefault, (onlyBlank_iff reads outside).mp blank⟩
    · have atSecond : second ∈ second :: (more ++ back) := List.mem_cons_self
      have lower := reads.position_le atSecond
      have noChunk := reads.head_of_outside outside second rfl
      have nonempty := (reads.isText atSecond noChunk).2.pos
      have upper := reads.le_start (List.nil_append _).symm (List.mem_append_left back later)
      exact absurd blank (not_onlyBlank_of_mem reads atSecond noChunk lower (by omega))
  · rintro ⟨secondIsDefault, start⟩
    rw [List.find?_cons_of_pos (by simpa using secondIsDefault)] at found
    obtain rfl := Option.some.inj found
    exact (onlyBlank_iff reads outside).mpr start

/-- The keywords of a default export are taken out by one edit if only white space stands between them; otherwise
nothing of its wiring is. -/
theorem wiringEdits_default (isRead : m.IsRead) (member : item ∈ m.items) (kind : item.kind = .exportedDefault) :
    (∃ e, wiringEdits m.text item = [e] ∧ e.replacement = [] ∧ item.HasBlankKeywords m.text ∧
        ∀ t ∈ item.tree.leaves.take 1 ++ item.defaultKeyword?.toList, e.span.start ≤ t.start ∧ t.stop ≤ e.span.stop) ∨
      wiringEdits m.text item = [] ∧ ¬item.HasBlankKeywords m.text := by
  have read := isRead.items item member
  obtain ⟨first, second, word, more, eq⟩ := read.opens.byDefault kind
  have leaves : item.tree.leaves = first :: second :: more := eq.symm
  have head : first ∈ item.tree.leaves.head? := by rw [leaves]; rfl
  have isExport : first.lexeme = .keyword .export_ := by
    obtain ⟨first', head', isExport⟩ := read.opens.exported (Or.inr kind)
    rwa [Option.mem_unique head head']
  obtain ⟨keyword, found⟩ : ∃ keyword, item.defaultKeyword? = some keyword := by
    obtain ⟨keyword, inside, isDefault⟩ := read.holds.byDefault kind
    rw [← Option.isSome_iff_exists, Item.defaultKeyword?, List.find?_isSome]
    exact ⟨keyword, inside, by simpa using isDefault⟩
  obtain ⟨before, after, split⟩ := List.append_of_mem member
  obtain ⟨isText, order, s, outside, reads⟩ := exported_begins isRead split head isExport
  rw [leaves, List.tail_cons, List.cons_append] at reads
  have search (stop : Nat) := Lexer.keywordsStop?_default stop reads outside isText isExport order word
  have blank : item.HasBlankKeywords m.text ↔ second.lexeme = .keyword .default_ ∧
      second.start = first.stop + Text.blankLength (m.text.drop first.stop) := by
    rw [← onlyBlank_default_iff leaves isExport reads outside found]
    simp [Item.HasBlankKeywords, leaves, found]
  have edits : wiringEdits m.text item = keywordEdit m.text item ["export", "default"] := by simp [wiringEdits, kind]
  rw [edits, keywordEdit, start_eq head, blank]
  cases stops : keywordsStop? m.text first.start ["export", "default"] with
  | none =>
    refine Or.inr ⟨rfl, fun ⟨isDefault, start⟩ => ?_⟩
    rw [(search _).mpr ⟨isDefault, start, rfl⟩] at stops
    cases stops
  | some stop =>
    obtain ⟨isDefault, start, rfl⟩ := (search stop).mp stops
    have same : keyword = second := by
      rw [Item.defaultKeyword?, leaves, List.find?_cons_of_neg (by simp [isExport]),
        List.find?_cons_of_pos (by simpa using isDefault)] at found
      exact (Option.some.inj found).symm
    have within := (reads.within List.mem_cons_self).1
    refine Or.inl ⟨_, rfl, rfl, ⟨isDefault, start⟩, fun t inside => ?_⟩
    rw [leaves, found, List.take_succ_cons, List.take_zero, Option.toList_some, List.singleton_append] at inside
    simp only [Edit.remove]
    rcases List.mem_cons.mp inside with rfl | inside
    · omega
    · rw [List.mem_singleton.mp inside, same]
      omega

/-- The keywords of a default export are taken out exactly if only white space stands between them. -/
theorem removes_default_iff (isRead : m.IsRead) (member : item ∈ m.items) (kind : item.kind = .exportedDefault) :
    m.Removes (item.tree.leaves.take 1 ++ item.defaultKeyword?.toList) ↔ item.HasBlankKeywords m.text := by
  have other : item.kind ≠ .statement := by simp [kind]
  obtain ⟨first, head, _⟩ := (isRead.items item member).opens.exported (Or.inr kind)
  have inside : first ∈ item.tree.leaves.take 1 ++ item.defaultKeyword?.toList := by
    obtain ⟨rest, leaves⟩ := List.head?_eq_some_iff.mp (Option.mem_def.mp head)
    simp [leaves]
  rw [removes_iff_wiringEdits isRead member other head inside]
  rcases wiringEdits_default isRead member kind with ⟨e, edits, removes, blank, covers⟩ | ⟨none, apart⟩
  · exact iff_of_true ⟨e, by simp [edits], removes, covers⟩ blank
  · exact iff_of_false (by simp [none]) apart

/-- What is wiring in an item is taken out of its module exactly if the search for it passes over nothing but
white space: from `export` to `default`, and from an export under one name to its semicolon. The keyword before an
enumeration of constants is never taken out, all other wiring always. -/
theorem removes_iff_isRemovable (parsed : parse? source = some m) (member : item ∈ m.items)
    (wired : item.kind ≠ .statement ∧ item.kind ≠ .aliasing) :
    m.Removes item.wiringTokens ↔ item.IsRemovable m.text := by
  have isRead := isRead_of_parse parsed
  unfold Item.wiringTokens Item.IsRemovable
  cases kind : item.kind with
  | statement => exact absurd kind wired.1
  | aliasing => exact absurd kind wired.2
  | importing | reexporting | exportList =>
    have isWiring : item.kind.isWiring = true := by rw [kind]; rfl
    have whole : item.stop = item.tree.stop := by simp [Item.stop, kind]
    exact iff_of_true (removes_leaves isRead member isWiring whole) trivial
  | reexportingAs source => exact removes_reexportingAs_iff isRead member ⟨source, kind⟩
  | exportedDeclaration => exact iff_of_true (removes_export isRead member kind) trivial
  | exportedConstants => exact iff_of_false (not_removes_constants isRead member kind) id
  | exportedDefault => exact removes_default_iff isRead member kind

/-- The keywords of a default export are taken out if one stands in the line behind the other. -/
theorem removes_default_in_next_line : ∃ m item, parse? "export\n default b".toList = some m ∧ item ∈ m.items ∧
    item.kind = .exportedDefault ∧ m.Removes item.wiringTokens := by
  have read : (parse? "export\n default b".toList).map (fun m =>
      (m.text, m.items.map fun item =>
        (item.kind, item.tree.leaves.head?.map Token.stop, item.defaultKeyword?.map Token.start))) =
        some ("export\n default b".toList, [(.exportedDefault, some 6, some 8)]) := by
    decide +kernel
  obtain ⟨m, parsed, eq⟩ := Option.map_eq_some_iff.mp read
  obtain ⟨text, items⟩ := Prod.mk.inj eq
  obtain ⟨item, only, eq⟩ := List.map_eq_singleton_iff.mp items
  obtain ⟨kind, eq⟩ := Prod.mk.inj eq
  obtain ⟨stops, starts⟩ := Prod.mk.inj eq
  have member : item ∈ m.items := by simp [only]
  refine ⟨m, item, parsed, member, kind, ?_⟩
  refine (removes_iff_isRemovable parsed member ⟨by simp [kind], by simp [kind]⟩).mpr ?_
  simp only [Item.IsRemovable, kind]
  intro first head keyword found
  obtain ⟨first', head', stop⟩ := Option.map_eq_some_iff.mp stops
  obtain ⟨keyword', found', start⟩ := Option.map_eq_some_iff.mp starts
  rw [Option.mem_unique head head', Option.mem_unique found found', stop, start, text]
  intro p lower upper
  obtain rfl | rfl : p = 6 ∨ p = 7 := by omega
  · exact ⟨'\n', rfl, rfl⟩
  · exact ⟨' ', rfl, rfl⟩

/-- With a comment between its keywords, a default export stays as it is. -/
theorem not_removes_default_behind_comment : ∃ m item, parse? "export /* c */ default b;".toList = some m ∧
    item ∈ m.items ∧ item.kind = .exportedDefault ∧ ¬m.Removes item.wiringTokens := by
  have read : (parse? "export /* c */ default b;".toList).map (fun m => (m.edits, m.items.map Item.kind)) =
      some ([], [.exportedDefault]) := by
    decide +kernel
  obtain ⟨m, parsed, eq⟩ := Option.map_eq_some_iff.mp read
  obtain ⟨edits, kinds⟩ := Prod.mk.inj eq
  obtain ⟨item, only, kind⟩ := List.map_eq_singleton_iff.mp kinds
  refine ⟨m, item, parsed, by simp [only], kind, ?_⟩
  rintro ⟨e, edit, _⟩
  simp [edits] at edit

end Module

end ModuleBundler.Script
