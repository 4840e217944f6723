import ModuleBundler.Proofs.Script.Forwarding
import ModuleBundler.Proofs.Text.Edit

namespace ModuleBundler.Script

open Text (Edit)

/-- The tokens of a module and its items are those of its text. -/
structure Module.IsRead (m : Module) : Prop where
  reads : Lexer.Reads m.text (Lexer.hashBang m.text) .initial m.tokens
  items : ∀ item ∈ m.items, item.IsRead

/-- The words that an edit begins with. -/
def OpensEdit (lexeme : Lexeme) : Prop :=
  lexeme = .keyword .import_ ∨ lexeme = .keyword .export_ ∨ lexeme = .keyword .super_

theorem noChunk_of_opens {lexeme : Lexeme} (opens : OpensEdit lexeme) : lexeme.isChunk = false := by
  rcases opens with rfl | rfl | rfl <;> rfl

/-- An edit that takes some of the tokens of a module. -/
structure Cuts (m : Module) (e : Edit) (front taken back : List Token) : Prop where
  eq : m.tokens = front ++ taken ++ back
  takes : Lexer.Takes m.text taken back e.span.start e.span.stop
  opens : ∀ first ∈ taken.head?, OpensEdit first.lexeme
  plain : ∀ c ∈ e.replacement, c ≠ '/' ∧ c ≠ '\n' ∧ Text.isBlank c = false

/-- An edit that begins with a token of an item and takes at most a semicolon of the tokens behind the item. -/
def IsEditOf (m : Module) (item : Item) (behind : List Token) (e : Edit) : Prop :=
  ∃ front taken back, Cuts m e front taken back ∧ (∀ first ∈ taken.head?, first ∈ item.tree.leaves) ∧
    ∀ t ∈ behind, t.lexeme ≠ .mark .semicolon → t ∈ back

/-- Number of keywords that an exported declaration begins with. -/
def ItemKind.keywords : ItemKind → Nat
  | .exportedDeclaration => 1
  | .exportedDefault => 2
  | _ => 0

/-- The tokens of some items. -/
def tokensOf (items : List Item) : List Token := items.flatMap fun item => item.tree.leaves

namespace Module

variable {m : Module} {item : Item} {before after : List Item} {e : Edit} {source : List Char}

theorem isRead_of_parse (h : parse? source = some m) : m.IsRead where
  reads := Lexer.reads_tokenize (parse_spec h).1
  items := (parse_spec h).2

theorem tokens_split (split : m.items = before ++ item :: after) :
    m.tokens = tokensOf before ++ (item.tree.leaves ++ tokensOf after) := by
  rw [tokens, split, List.flatMap_append, List.flatMap_cons]
  rfl

theorem noChunk_tokensOf {items : List Item} (isRead : ∀ item ∈ items, item.IsRead) :
    ∀ first ∈ (tokensOf items).head?, first.lexeme.isChunk = false := by
  induction items with
  | nil =>
    intro first none
    cases none
  | cons item items ih =>
    intro first here
    rw [tokensOf, List.flatMap_cons] at here
    cases eq : item.tree.leaves with
    | nil =>
      rw [eq] at here
      exact ih (fun i member => isRead i (List.mem_cons_of_mem _ member)) first here
    | cons head rest =>
      rw [eq] at here
      cases here
      exact (isRead item List.mem_cons_self).opens.noChunk _ (by rw [eq]; rfl)

theorem stop_of_getLast {tokens : List Token} {w : Token} (isLast : tokens.getLast? = some w) :
    ∃ front, tokens = front ++ [w] := by
  obtain ⟨front, same⟩ := List.getLast?_eq_some_iff.mp isLast
  exact ⟨front, same⟩

/-- An item stops at a token. Only semicolons of the item stand behind it. -/
theorem stop_eq {first : Token} (head : first ∈ item.tree.leaves.head?)
    (noSemicolon : first.lexeme ≠ .mark .semicolon) :
    ∃ front w semicolons, item.tree.leaves = front ++ w :: semicolons ∧ item.stop = w.stop ∧
      ∀ t ∈ semicolons, t.lexeme = .mark .semicolon := by
  have member := List.mem_of_head? head
  by_cases isAs : ∃ source, item.kind = .reexportingAs source
  · obtain ⟨source, isAs⟩ := isAs
    have kept : first ∈ item.tree.leaves.filter fun t => t.lexeme ≠ .mark .semicolon := by
      simp [member, noSemicolon]
    have nonempty := List.ne_nil_of_mem kept
    obtain ⟨front, last⟩ := stop_of_getLast (List.getLast?_eq_some_getLast nonempty)
    obtain ⟨l, rest, eq, _, cons⟩ := List.filter_eq_append_iff.mp last
    obtain ⟨more, semicolons, rfl, _, _, none⟩ := List.filter_eq_cons_iff.mp cons
    refine ⟨l ++ more, _, semicolons, by rw [eq, List.append_assoc], ?_, fun t semicolon => ?_⟩
    · simp only [Item.stop, isAs, Item.stopBeforeSemicolon]
      rw [List.getLast?_eq_some_getLast nonempty]
    · simpa using List.filter_eq_nil_iff.mp none t semicolon
  · have nonempty := List.ne_nil_of_mem member
    obtain ⟨front, last⟩ := stop_of_getLast (List.getLast?_eq_some_getLast nonempty)
    refine ⟨front, _, [], last, ?_, fun t none => absurd none List.not_mem_nil⟩
    have stop : item.stop = item.tree.stop := by
      unfold Item.stop
      split
      · next source eq => exact absurd ⟨source, eq⟩ isAs
      · rfl
    rw [stop, Tree.stop, List.getLast?_eq_some_getLast nonempty]

theorem head?_append_cons {tokens front back : List Token} {w first : Token} (eq : tokens = front ++ w :: back) :
    first ∈ tokens.head? ↔ first ∈ (front ++ [w]).head? := by
  subst eq
  cases front <;> simp

theorem start_eq {first : Token} (head : first ∈ item.tree.leaves.head?) : item.start = first.start := by
  rw [Item.start, Tree.start, Option.mem_def.mp head]

/-- A statement that is no part of a script is taken out up to the last of its tokens that is no semicolon, and
with one semicolon behind that. -/
theorem takes_wiring {first : Token} (isRead : m.IsRead) (split : m.items = before ++ item :: after)
    (head : first ∈ item.tree.leaves.head?) (noSemicolon : first.lexeme ≠ .mark .semicolon) :
    ∃ front w semicolons more rest, item.tree.leaves = front ++ w :: semicolons ∧
      (∀ t ∈ semicolons, t.lexeme = .mark .semicolon) ∧
      semicolons ++ tokensOf after = more ++ rest ∧ (∀ t ∈ more, t.lexeme = .mark .semicolon) ∧
      more.length ≤ 1 ∧ (m.text[w.stop - 1]? = some ';' → more = []) ∧
      Lexer.Takes m.text (front ++ [w] ++ more) rest item.start (statementStop m.text item.stop) := by
  obtain ⟨front, w, semicolons, leaves, stop, areSemicolons⟩ := stop_eq head noSemicolon
  have start := start_eq head
  have eq : m.tokens = (tokensOf before ++ front) ++ w :: (semicolons ++ tokensOf after) := by
    rw [tokens_split split, leaves]
    simp
  have starts : ∃ first ∈ (front ++ [w]).head?, first.start = item.start :=
    ⟨first, (head?_append_cons leaves).mp head, start.symm⟩
  have covered : ∀ t ∈ front ++ [w], t.stop ≤ w.stop := by
    intro t member
    rcases List.mem_append.mp member with earlier | last
    · have := isRead.reads.stop_le eq (List.mem_append_right _ earlier)
      have := (isRead.reads.within (eq ▸ List.mem_append_right _ List.mem_cons_self : w ∈ m.tokens)).1
      omega
    · rw [List.mem_singleton.mp last]
  have noChunk : ∀ next ∈ (semicolons ++ tokensOf after).head?, next.lexeme.isChunk = false := by
    intro next here
    cases semicolons with
    | nil =>
      refine noChunk_tokensOf (fun i inside => isRead.items i ?_) next here
      rw [split]
      exact List.mem_append_right _ (List.mem_cons_of_mem _ inside)
    | cons semicolon rest =>
      cases here
      rw [areSemicolons _ List.mem_cons_self]
      rfl
  suffices ∃ more rest, semicolons ++ tokensOf after = more ++ rest ∧ (∀ t ∈ more, t.lexeme = .mark .semicolon) ∧
      more.length ≤ 1 ∧ (m.text[w.stop - 1]? = some ';' → more = []) ∧
      Lexer.Takes m.text (front ++ [w] ++ more) rest item.start (statementStop m.text item.stop) by
    obtain ⟨more, rest, takes⟩ := this
    exact ⟨front, w, semicolons, more, rest, leaves, areSemicolons, takes⟩
  rw [stop]
  rcases isRead.reads.behind Lexer.Situation.nested_initial eq
    with ⟨_, _, c, rest, closes, here⟩ | ⟨_, s, _, _, _, reads⟩
  · refine ⟨[], _, rfl, (fun t none => absurd none List.not_mem_nil), Nat.zero_le _, fun _ => rfl, ?_⟩
    rw [Lexer.statementStop_of_closer closes here, List.append_nil]
    refine ⟨starts, covered, fun t => isRead.reads.le_start eq, Or.inl ⟨w, by simp, rfl⟩, ?_, noChunk⟩
    exact (isRead.reads.within (eq ▸ List.mem_append_right _ List.mem_cons_self : w ∈ m.tokens)).2
  · exact Lexer.takes_statement reads (reads.outside_of_head noChunk) starts covered (by simp)

/-- A statement that is no part of a script is taken out whole. -/
theorem isEditOf_statement (isRead : m.IsRead) (split : m.items = before ++ item :: after)
    (other : item.kind ≠ .statement) :
    IsEditOf m item (tokensOf after) (.remove item.start (statementStop m.text item.stop)) := by
  obtain ⟨first, head, word⟩ := (isRead.items item (by simp [split])).opens.keyword other
  obtain ⟨front, w, semicolons, more, rest, leaves, _, same, areMore, _, _, takes⟩ :=
    takes_wiring isRead split head (by rcases word with h | h <;> simp [h])
  have head_taken : ∀ t ∈ (front ++ [w] ++ more).head?, t = first := by
    intro t here
    rw [List.head?_append, Option.mem_def.mp ((head?_append_cons leaves).mp head)] at here
    exact (Option.some.inj here).symm
  refine ⟨tokensOf before, front ++ [w] ++ more, rest, ⟨?_, takes, ?_, ?_⟩, ?_, ?_⟩
  · rw [tokens_split split, leaves, List.append_assoc front, List.cons_append, same]
    simp
  · intro t here
    rw [head_taken t here]
    exact word.imp id Or.inl
  · intro c none
    cases none
  · intro t here
    rw [head_taken t here]
    exact List.mem_of_head? head
  · intro t behind noSemicolon
    have inside : t ∈ more ++ rest := same ▸ List.mem_append_right _ behind
    rcases List.mem_append.mp inside with semicolon | inRest
    · exact absurd (areMore t semicolon) noSemicolon
    · exact inRest

/-- Where the lexer stands behind a token that leads into no template. -/
theorem outside_behind {front back : List Token} {w : Token} (isRead : m.IsRead) (eq : m.tokens = front ++ w :: back)
    (noChunk : w.lexeme.isChunk = false) (noLead : ¬Lexer.Situation.LeadsIn w.lexeme) :
    ∃ s : Lexer.Situation, s.inTemplate = false ∧ Lexer.Reads m.text w.stop s back := by
  rcases isRead.reads.behind Lexer.Situation.nested_initial eq with ⟨isChunk, _⟩ | ⟨_, s, _, leads, _, reads⟩
  · rw [noChunk] at isChunk
    cases isChunk
  · refine ⟨s, ?_, reads⟩
    by_contra inside
    exact noLead (leads (by simpa using inside))

/-- The keywords of an exported declaration are taken out, and nothing else of it. -/
theorem cuts_keywords (isRead : m.IsRead) (split : m.items = before ++ item :: after)
    (exported : item.kind = .exportedDeclaration ∨ item.kind = .exportedDefault)
    (edit : e ∈ wiringEdits m.text item) :
    ∃ taken rest, item.tree.leaves = taken ++ rest ∧ taken.length = item.kind.keywords ∧
      (∀ t ∈ taken, t.lexeme = .keyword .export_ ∨ t.lexeme = .keyword .default_) ∧
      Cuts m e (tokensOf before) taken (rest ++ tokensOf after) := by
  have opens := (isRead.items item (by simp [split])).opens
  obtain ⟨first, head, isExport⟩ := opens.exported exported
  obtain ⟨rest, leaves⟩ := List.head?_eq_some_iff.mp (Option.mem_def.mp head)
  have start := start_eq head
  have eq : m.tokens = tokensOf before ++ first :: (rest ++ tokensOf after) := by
    rw [tokens_split split, leaves, List.cons_append]
  have member : first ∈ m.tokens := eq ▸ List.mem_append_right _ List.mem_cons_self
  have order := (isRead.reads.within member).1
  have isText := (isRead.reads.isText member (by rw [isExport]; rfl)).2
  obtain ⟨s, outside, reads⟩ := outside_behind isRead eq (by rw [isExport]; rfl)
    (by simp [isExport, Lexer.Situation.LeadsIn])
  unfold wiringEdits keywordEdit at edit
  rcases exported with isDeclaration | byDefault
  · simp only [isDeclaration, start] at edit
    split at edit
    · next stop found =>
      obtain rfl := List.mem_singleton.mp edit
      have takes := Lexer.takes_export reads outside isText isExport order found
      refine ⟨[first], rest, leaves, by rw [isDeclaration]; rfl, fun t here => ?_,
        ⟨by simpa using eq, takes, fun t here => ?_, fun c none => ?_⟩⟩
      · exact Or.inl (List.mem_singleton.mp here ▸ isExport)
      · cases here
        exact Or.inr (Or.inl isExport)
      · cases none
    · cases edit
  · simp only [byDefault, start] at edit
    obtain ⟨first', second, word, more, leaves'⟩ := opens.byDefault byDefault
    rw [leaves] at leaves'
    cases leaves'
    split at edit
    · next stop found =>
      obtain rfl := List.mem_singleton.mp edit
      obtain ⟨isDefault, takes⟩ := Lexer.takes_default reads outside isText isExport order word found
      refine ⟨[first, second], more, leaves, by rw [byDefault]; rfl, fun t here => ?_,
        ⟨by simpa using eq, takes, fun t here => ?_, fun c none => ?_⟩⟩
      · rcases List.mem_cons.mp here with rfl | here
        · exact Or.inl isExport
        · exact Or.inr (List.mem_singleton.mp here ▸ isDefault)
      · cases here
        exact Or.inr (Or.inl isExport)
      · cases none
    · cases edit

theorem plain_super : ∀ c ∈ "super()".toList, c ≠ '/' ∧ c ≠ '\n' ∧ Text.isBlank c = false := by
  simp [Text.isBlank]

/-- A forwarding call is replaced whole. -/
theorem cuts_forwarding {call : Tree} {front back : List Token} (isRead : m.IsRead)
    (split : m.items = before ++ item :: after)
    (forwards : isForwarding call = true) (leaves : item.tree.leaves = front ++ call.leaves ++ back) :
    Cuts m ⟨⟨call.start, call.stop⟩, "super()".toList⟩ (tokensOf before ++ front) call.leaves
        (back ++ tokensOf after) := by
  obtain ⟨first, opener, held, closer, eq, isSuper, opens, passes, closes⟩ := isForwarding_leaves forwards
  have whole : m.tokens = tokensOf before ++ front ++ call.leaves ++ (back ++ tokensOf after) := by
    rw [tokens_split split, leaves]
    simp
  have fromFirst : m.tokens = (tokensOf before ++ front) ++
      first :: opener :: (held ++ closer :: (back ++ tokensOf after)) := by
    rw [whole, eq]
    simp
  have fromLast : m.tokens = (tokensOf before ++ front ++ first :: opener :: held) ++
      closer :: (back ++ tokensOf after) := by
    rw [whole, eq]
    simp
  have start : call.start = first.start := by rw [Tree.start, eq]; rfl
  have stop : call.stop = closer.stop := by
    have last : call.leaves.getLast? = some closer := by
      rw [eq, ← List.cons_append, ← List.cons_append, List.getLast?_concat]
    rw [Tree.stop, last]
  have within := isRead.reads.within (fromLast ▸ List.mem_append_right _ List.mem_cons_self : closer ∈ m.tokens)
  refine ⟨whole, ⟨⟨first, by rw [eq]; rfl, start.symm⟩, fun t member => ?_, fun t behind => ?_, ?_, ?_,
    fun next here => ?_⟩, fun t here => ?_, plain_super⟩
  · simp only [stop]
    rw [eq, ← List.cons_append, ← List.cons_append] at member
    rcases List.mem_append.mp member with earlier | last
    · have := isRead.reads.stop_le fromLast (List.mem_append_right _ earlier)
      omega
    · rw [List.mem_singleton.mp last]
  · simp only [stop]
    exact isRead.reads.le_start fromLast behind
  · exact Or.inl ⟨closer, by rw [eq]; simp, stop.symm⟩
  · simp only [stop]
    exact within.2
  · obtain ⟨rest, more⟩ := List.head?_eq_some_iff.mp (Option.mem_def.mp here)
    rw [more] at fromFirst
    exact isRead.reads.behind_parens Lexer.Situation.nested_initial fromFirst
      (by simp [isSuper, Lexer.Situation.LeadsIn])
      (by rw [isSuper]; rfl) opens passes closes
  · rw [eq] at here
    cases here
    exact Or.inr (Or.inr isSuper)

theorem mem_forwardingEdits (isRead : m.IsRead) (split : m.items = before ++ item :: after)
    (edit : e ∈ forwardingEdits item) :
    ∃ call front back, isForwarding call = true ∧ item.tree.leaves = front ++ call.leaves ++ back ∧
      Cuts m e (tokensOf before ++ front) call.leaves (back ++ tokensOf after) := by
  obtain ⟨call, kept, rfl⟩ := List.mem_map.mp edit
  have forwards := (List.mem_filter.mp kept).2
  have scattered := scattered_nodesOf item.tree (isRead.items item (by simp [split])).headed
  obtain ⟨front, back, leaves⟩ := scattered.split (List.mem_map_of_mem kept)
  exact ⟨call, front, back, forwards, leaves, cuts_forwarding isRead split forwards leaves⟩

/-- Whether an edit is made for an item. -/
def EditFor (m : Module) (item : Item) (e : Edit) : Prop :=
  e ∈ wiringEdits m.text item ∨ item.kind.isWiring = false ∧ e ∈ forwardingEdits item

theorem mem_wiringEdits (edit : e ∈ wiringEdits m.text item) :
    (item.kind.isWiring = true ∧ e = .remove item.start (statementStop m.text item.stop)) ∨
      item.kind.isWiring = false ∧ (item.kind = .exportedDeclaration ∨ item.kind = .exportedDefault) := by
  unfold wiringEdits at edit
  split at edit
  all_goals next kind => rw [kind]; simp_all [ItemKind.isWiring]

theorem mem_edits : e ∈ m.edits ↔ ∃ item ∈ m.items, EditFor m item e := by
  simp only [edits, List.mem_append, List.mem_flatMap, List.mem_filter, EditFor, Bool.not_eq_true', and_assoc]
  constructor
  · rintro (⟨item, member, edit⟩ | ⟨item, member, other, edit⟩)
    · exact ⟨item, member, Or.inl edit⟩
    · exact ⟨item, member, Or.inr ⟨other, edit⟩⟩
  · rintro ⟨item, member, edit | ⟨other, edit⟩⟩
    · exact Or.inl ⟨item, member, edit⟩
    · exact Or.inr ⟨item, member, other, edit⟩

theorem EditFor.isEditOf (edit : EditFor m item e) (isRead : m.IsRead) (split : m.items = before ++ item :: after) :
    IsEditOf m item (tokensOf after) e := by
  rcases edit with wiring | ⟨_, forwarding⟩
  · rcases mem_wiringEdits wiring with ⟨isWiring, rfl⟩ | ⟨_, exported⟩
    · refine isEditOf_statement isRead split fun isStatement => ?_
      rw [isStatement] at isWiring
      cases isWiring
    · obtain ⟨taken, rest, leaves, _, _, cuts⟩ := cuts_keywords isRead split exported wiring
      refine ⟨_, taken, _, cuts, fun first here => ?_, fun t behind _ => List.mem_append_right _ behind⟩
      exact leaves ▸ List.mem_append_left _ (List.mem_of_head? here)
  · obtain ⟨call, front, back, _, leaves, cuts⟩ := mem_forwardingEdits isRead split forwarding
    refine ⟨_, call.leaves, _, cuts, fun first here => ?_, fun t behind _ => List.mem_append_right _ behind⟩
    exact leaves ▸ List.mem_append_left _ (List.mem_append_right _ (List.mem_of_head? here))

/-- Each edit takes some of the tokens. -/
theorem cuts_of_mem_edits (isRead : m.IsRead) (member : e ∈ m.edits) :
    ∃ front taken back, Cuts m e front taken back := by
  obtain ⟨item, inside, edit⟩ := mem_edits.mp member
  obtain ⟨before, after, split⟩ := List.append_of_mem inside
  obtain ⟨front, taken, back, cuts, _⟩ := edit.isEditOf isRead split
  exact ⟨front, taken, back, cuts⟩

/-- Edits for different items stand in the order of the items. -/
theorem EditFor.le {other : Item} {f : Edit} (isRead : m.IsRead) (split : m.items = before ++ item :: after)
    (later : other ∈ after) (edit : EditFor m item e) (edit' : EditFor m other f) : e.span.stop ≤ f.span.start := by
  obtain ⟨before', after', split'⟩ := List.append_of_mem (show other ∈ m.items by simp [split, later])
  obtain ⟨_, taken, back, cuts, _, behind⟩ := edit.isEditOf isRead split
  obtain ⟨_, taken', _, cuts', inside, _⟩ := edit'.isEditOf isRead split'
  obtain ⟨first, head, start⟩ := cuts'.takes.starts
  have inAfter : first ∈ tokensOf after := List.mem_flatMap.mpr ⟨other, later, inside first head⟩
  have noSemicolon : first.lexeme ≠ .mark .semicolon := by
    rcases cuts'.opens first head with h | h | h <;> simp [h]
  rw [← start]
  exact cuts.takes.clear first (behind first inAfter noSemicolon)

theorem pairwise_of_split {α : Type} {l : List α} {R : α → α → Prop}
    (h : ∀ before a after, l = before ++ a :: after → ∀ b ∈ after, R a b) : l.Pairwise R := by
  induction l with
  | nil => exact .nil
  | cons a l ih =>
    refine .cons (h [] a l rfl) (ih fun before b after split => h (a :: before) b after ?_)
    rw [split, List.cons_append]

theorem pairwise_wiringEdits {R : Edit → Edit → Prop} : (wiringEdits m.text item).Pairwise R := by
  unfold wiringEdits keywordEdit
  split
  · exact List.pairwise_singleton _ _
  · exact List.pairwise_singleton _ _
  · exact List.pairwise_singleton _ _
  · exact List.pairwise_singleton _ _
  · split
    · exact List.pairwise_singleton _ _
    · exact .nil
  · split
    · exact List.pairwise_singleton _ _
    · exact .nil
  all_goals exact .nil

/-- The forwarding calls of one item stand in the order of the edits for them. -/
theorem pairwise_forwardingEdits (isRead : m.IsRead) (split : m.items = before ++ item :: after) :
    (forwardingEdits item).Pairwise fun a b => a.span.stop ≤ b.span.start := by
  have scattered := scattered_nodesOf item.tree (isRead.items item (by simp [split])).headed
  rw [forwardingEdits, List.pairwise_map]
  refine (List.pairwise_map.mp scattered.pairwise).imp_of_mem ?_
  rintro a b memberA memberB ⟨front, back, leaves, behind⟩
  have cuts := cuts_forwarding isRead split (List.mem_filter.mp memberA).2 leaves
  obtain ⟨first, _, _, _, eq, _⟩ := isForwarding_leaves (List.mem_filter.mp memberB).2
  have start : b.start = first.start := by rw [Tree.start, eq]; rfl
  have inBack := behind first (eq ▸ List.mem_cons_self)
  simp only [start]
  exact cuts.takes.clear first (List.mem_append_left _ inBack)

/-- In an exported declaration, forwarding calls stand behind the keywords. -/
theorem keywords_le_forwarding {f : Edit} (isRead : m.IsRead) (split : m.items = before ++ item :: after)
    (exported : item.kind = .exportedDeclaration ∨ item.kind = .exportedDefault) (edit : e ∈ wiringEdits m.text item)
    (edit' : f ∈ forwardingEdits item) : e.span.stop ≤ f.span.start := by
  obtain ⟨taken, rest, leaves, _, keywords, cuts⟩ := cuts_keywords isRead split exported edit
  obtain ⟨call, front, back, forwards, leaves', cuts'⟩ := mem_forwardingEdits isRead split edit'
  obtain ⟨first, _, _, _, eq, isSuper, _⟩ := isForwarding_leaves forwards
  obtain ⟨head, here, start⟩ := cuts'.takes.starts
  obtain rfl : head = first := by
    rw [eq] at here
    cases here
    rfl
  have inside : head ∈ taken ++ rest := by
    rw [← leaves, leaves', eq]
    simp
  rw [← start]
  rcases List.mem_append.mp inside with keyword | inRest
  · rcases keywords head keyword with h | h <;> simp [h] at isSuper
  · exact cuts.takes.clear head (List.mem_append_left _ inRest)

/-- The edits of a module lie apart. -/
theorem apart_edits (isRead : m.IsRead) : Edit.Apart m.edits m.text.length where
  nonempty e member := by
    obtain ⟨front, taken, back, cuts⟩ := cuts_of_mem_edits isRead member
    obtain ⟨first, head, start⟩ := cuts.takes.starts
    have inTaken := List.mem_of_head? head
    have inside : first ∈ m.tokens := by simp [cuts.eq, inTaken]
    have pos := (isRead.reads.isText inside (noChunk_of_opens (cuts.opens first head))).2.pos
    have covered := cuts.takes.covered first inTaken
    omega
  within e member := by
    obtain ⟨front, taken, back, cuts⟩ := cuts_of_mem_edits isRead member
    exact cuts.takes.within
  disjoint := by
    have ordered : m.items.Pairwise fun i j => ∀ e f, EditFor m i e → EditFor m j f → e.span.stop ≤ f.span.start :=
      pairwise_of_split fun before i after split j later e f edit edit' => edit.le isRead split later edit'
    refine List.pairwise_append.mpr ⟨?_, ?_, fun e wiring f forwarding => ?_⟩
    · refine List.pairwise_flatMap.mpr ⟨fun item _ => pairwise_wiringEdits, ordered.imp fun less e edit f edit' => ?_⟩
      exact Or.inl (less e f (Or.inl edit) (Or.inl edit'))
    · refine List.pairwise_flatMap.mpr ⟨fun item member => ?_,
        (ordered.filter _).imp_of_mem fun memberI memberJ less e edit f edit' => ?_⟩
      · obtain ⟨before, after, split⟩ := List.append_of_mem (List.mem_filter.mp member).1
        exact (pairwise_forwardingEdits isRead split).imp Or.inl
      · have otherI := (List.mem_filter.mp memberI).2
        have otherJ := (List.mem_filter.mp memberJ).2
        exact Or.inl (less e f (Or.inr ⟨by simpa using otherI, edit⟩) (Or.inr ⟨by simpa using otherJ, edit'⟩))
    · obtain ⟨i, memberI, edit⟩ := List.mem_flatMap.mp wiring
      obtain ⟨j, memberJ, edit'⟩ := List.mem_flatMap.mp forwarding
      obtain ⟨memberJ, otherJ⟩ := List.mem_filter.mp memberJ
      have forJ : EditFor m j f := Or.inr ⟨by simpa using otherJ, edit'⟩
      obtain ⟨before, after, split⟩ := List.append_of_mem memberI
      rw [split] at memberJ
      rcases List.mem_append.mp memberJ with earlier | here
      · obtain ⟨front, between, split'⟩ := List.append_of_mem earlier
        rw [split', List.append_assoc, List.cons_append] at split
        exact Or.inr (forJ.le isRead split (by simp) (Or.inl edit))
      · rcases List.mem_cons.mp here with rfl | later
        · rcases mem_wiringEdits edit with ⟨isWiring, _⟩ | ⟨_, exported⟩
          · simp [isWiring] at otherJ
          · exact Or.inl (keywords_le_forwarding isRead split exported edit edit')
        · exact Or.inl (EditFor.le isRead split later (Or.inl edit) forJ)

end Module

end ModuleBundler.Script
