import ModuleBundler.Proofs.Script.Progress
import ModuleBundler.Proofs.Script.Removal

namespace ModuleBundler.Script

open Text (Edit)

theorem ItemKind.source?_of_not_isWiring {kind : ItemKind} (left : kind.isWiring = false) : kind.source? = none := by
  cases kind with
  | importing | reexporting | reexportingAs | exportList => cases left
  | statement | exportedDeclaration | exportedDefault | exportedConstants | aliasing => rfl

theorem ItemKind.eq_exportList {kind : ItemKind} (isWiring : kind.isWiring = true) (none : kind.source? = none) :
    kind = .exportList := by
  cases kind with
  | exportList => rfl
  | importing | reexporting | reexportingAs => cases none
  | statement | exportedDeclaration | exportedDefault | exportedConstants | aliasing => cases isWiring

section Reading

open Grammar (reader)

variable {isOpen : Bool} {depth number : Nat} {tokens rest : List Token} {item : Item}
  {items before after : List Item}

theorem ne_nil_of_readItems {r : Reader} (h : readItems r number tokens = some items) (some_ : items ≠ []) :
    tokens ≠ [] := by
  rintro rfl
  cases number with
  | zero => cases h
  | succ number => exact some_ (Option.some.inj h).symm

theorem tokens_of_readItems (h : readItems (reader isOpen depth) number tokens = some items) :
    tokens = tokensOf items := by
  induction items generalizing number tokens with
  | nil =>
    by_contra some_
    obtain ⟨_, _, _, _, none, _⟩ := readItems_cons some_ h
    cases none
  | cons item items ih =>
    obtain ⟨_, rest, _, _, same, first, _, later⟩ := readItems_cons (ne_nil_of_readItems h (List.cons_ne_nil _ _)) h
    cases same
    rw [leaves_of_readItem first, ih later, tokensOf, tokensOf, List.flatMap_cons]

/-- Each item is read from its own tokens in front of those of the items behind it. -/
theorem readItem_of_readItems (h : readItems (reader isOpen depth) number tokens = some (before ++ item :: after)) :
    readItem (reader isOpen depth) (item.tree.leaves ++ tokensOf after) = some (item, tokensOf after) ∧
        item.tree.leaves ≠ [] := by
  induction before generalizing number tokens with
  | nil =>
    obtain ⟨_, rest, _, _, same, first, nonempty, later⟩ :=
      readItems_cons (ne_nil_of_readItems h (List.cons_ne_nil _ _)) h
    cases same
    have whole := leaves_of_readItem first
    rw [tokens_of_readItems later] at first whole
    exact ⟨whole ▸ first, nonempty⟩
  | cons earlier before ih =>
    obtain ⟨_, rest, _, _, same, _, _, later⟩ := readItems_cons (ne_nil_of_readItems h (List.cons_ne_nil _ _)) h
    cases same
    exact ih later

/-- An exported declaration goes on behind its keywords. -/
theorem keywords_lt_of_readItem (read : readItem (reader isOpen depth) tokens = some (item, rest))
    (exported : item.kind = .exportedDeclaration ∨ item.kind = .exportedDefault) :
        item.kind.keywords < item.tree.leaves.length := by
  have all := congrArg List.length (leaves_of_readItem read)
  rw [List.length_append] at all
  unfold readItem at read
  split at read
  · next kind tree rest run =>
    cases read
    cases depth with
    | zero => cases run
    | succ depth =>
      have byRule : (Grammar.itemRule {}).run (reader isOpen depth) ⟨[], tokens⟩ = .found kind ⟨[tree], rest⟩ := run
      have moves := Grammar.itemRule_moves byRule
      simp only at moves all exported ⊢
      rcases exported with rfl | rfl
      · have two := moves.1 rfl
        simp only [ItemKind.keywords]
        omega
      · have three := moves.2 rfl
        simp only [ItemKind.keywords]
        omega
  · cases read

end Reading

namespace Module

variable {m : Module} {item owner : Item} {before after : List Item} {e : Edit} {source : List Char} {u : Token}

theorem readItem_of_parse (parsed : parse? source = some m) (split : m.items = before ++ item :: after) :
    ∃ depth, readItem (Grammar.reader false depth) (item.tree.leaves ++ tokensOf after) =
      some (item, tokensOf after) ∧
      item.tree.leaves ≠ [] := by
  unfold parse? at parsed
  simp only at parsed
  split at parsed
  · obtain ⟨items, isItems, rfl⟩ := Option.map_eq_some_iff.mp parsed
    rw [itemsOf?_eq] at isItems
    simp only at split
    rw [split] at isItems
    exact ⟨_, readItem_of_readItems isItems⟩
  · cases parsed

/-- An edit for an item begins behind all earlier items. -/
theorem EditFor.le_start (edit : EditFor m owner e) (isRead : m.IsRead) (split : m.items = before ++ owner :: after)
    (earlier : u ∈ tokensOf before) : u.stop ≤ e.span.start := by
  obtain ⟨_, taken, _, cuts, own, _⟩ := edit.isEditOf isRead split
  obtain ⟨head, isHead, start⟩ := cuts.takes.starts
  obtain ⟨front, back, leaves⟩ := List.append_of_mem (own head isHead)
  have eq : m.tokens = (tokensOf before ++ front) ++ head :: (back ++ tokensOf after) := by
    rw [tokens_split split, leaves]
    simp
  have order := isRead.reads.stop_le eq (List.mem_append_left _ earlier)
  omega

/-- What is taken out with wiring that goes up to its semicolon is no part of a later item. -/
theorem statementStop_le (isRead : m.IsRead) (split : m.items = before ++ owner :: after)
    (isWiring : owner.kind.isWiring = true)
    (closed : IsClosed owner.tree.leaves (tokensOf after)) (later : u ∈ tokensOf after) :
    statementStop m.text owner.stop ≤ u.start := by
  have other : owner.kind ≠ .statement := by
    intro isStatement
    rw [isStatement] at isWiring
    cases isWiring
  obtain ⟨first, head, word⟩ := (isRead.items owner (by simp [split])).opens.keyword other
  obtain ⟨front, w, semicolons, more, rest, leaves, _, same, areMore, one, none, takes⟩ :=
    takes_wiring isRead split head (by rcases word with h | h <;> simp [h])
  refine takes.clear u ?_
  cases more with
  | nil =>
    rw [List.nil_append] at same
    exact same ▸ List.mem_append_right _ later
  | cons semicolon more =>
    obtain rfl : more = [] := List.length_eq_zero_iff.mp (by simpa using one)
    cases semicolons with
    | cons own semicolons =>
      obtain ⟨_, others⟩ : own = semicolon ∧ semicolons ++ tokensOf after = rest := by simpa using same
      exact others ▸ List.mem_append_right _ later
    | nil =>
      -- the semicolon would be one behind the item, but this goes up to its own
      have eq : m.tokens = (tokensOf before ++ front) ++ w :: tokensOf after := by
        rw [tokens_split split, leaves]
        simp
      rcases closed with ⟨last, isLast, isSemicolon⟩ | noSemicolon
      · rw [leaves, List.getLast?_concat] at isLast
        cases isLast
        have member : w ∈ m.tokens := by simp [eq]
        obtain ⟨_, isLexeme⟩ := isRead.reads.isLexeme member (by rw [isSemicolon]; rfl) (by simp [isSemicolon])
        rw [isSemicolon] at isLexeme
        obtain ⟨length, here⟩ := Lexer.eq_semicolon isLexeme
        rw [List.getElem?_drop, Nat.add_zero] at here
        cases none (by rw [show w.stop - 1 = w.start by omega, here])
      · rw [List.nil_append] at same
        exact absurd (areMore semicolon List.mem_cons_self) (noSemicolon semicolon (by rw [same]; rfl))

/-- An edit for an item ends before all later items. -/
theorem EditFor.stop_le (edit : EditFor m owner e) (isRead : m.IsRead) (split : m.items = before ++ owner :: after)
    (closed : owner.kind.isWiring = true → IsClosed owner.tree.leaves (tokensOf after)) (later : u ∈ tokensOf after) :
    e.span.stop ≤ u.start := by
  rcases edit with wiring | ⟨_, forwarding⟩
  · rcases mem_wiringEdits wiring with ⟨isWiring, rfl⟩ | ⟨_, exported⟩
    · exact statementStop_le isRead split isWiring (closed isWiring) later
    · obtain ⟨_, _, _, _, _, cuts⟩ := cuts_keywords isRead split exported wiring
      exact cuts.takes.clear u (List.mem_append_right _ later)
  · obtain ⟨_, _, _, _, _, cuts⟩ := mem_forwardingEdits isRead split forwarding
    exact cuts.takes.clear u (List.mem_append_right _ later)

/-- An edit for an item that is no wiring does not remove all of it. -/
theorem EditFor.lt_stop (edit : EditFor m item e) (isRead : m.IsRead) (split : m.items = before ++ item :: after)
    (left : item.kind.isWiring = false) (removes : e.replacement = [])
    (longer : item.kind = .exportedDeclaration ∨ item.kind = .exportedDefault →
      item.kind.keywords < item.tree.leaves.length) :
    e.span.stop < item.tree.stop := by
  rcases edit with wiring | ⟨_, forwarding⟩
  · rcases mem_wiringEdits wiring with ⟨isWiring, _⟩ | ⟨_, exported⟩
    · rw [left] at isWiring
      cases isWiring
    · obtain ⟨taken, rest, leaves, length, _, cuts⟩ := cuts_keywords isRead split exported wiring
      have more := longer exported
      rw [leaves, List.length_append, length] at more
      obtain ⟨next, rest, rfl⟩ := List.exists_cons_of_length_pos (show 0 < rest.length by omega)
      have clear := cuts.takes.clear next (by simp)
      have noChunk := cuts.takes.noChunk next rfl
      have member : next ∈ m.tokens := by rw [tokens_split split, leaves]; simp
      have pos := (isRead.reads.isText member noChunk).2.pos
      have stop := stop_le_tree_stop isRead (show item ∈ m.items by simp [split]) (u := next) (by rw [leaves]; simp)
      omega
  · obtain ⟨call, _, rfl⟩ := List.mem_map.mp forwarding
    cases removes

/-- Whether an edit of a module takes an item out whole. -/
def takesWhole (m : Module) (item : Item) : Bool :=
  m.edits.any fun e => e.replacement.isEmpty && decide (e.span.start ≤ item.start) && decide (item.stop ≤ e.span.stop)

theorem takesWhole_iff : m.takesWhole item = true ↔
    ∃ e ∈ m.edits, e.replacement = [] ∧ e.span.start ≤ item.start ∧ item.stop ≤ e.span.stop := by
  simp [takesWhole, and_assoc]

/-- An item begins with a token of its own. -/
theorem exists_first (parsed : parse? source = some m) (split : m.items = before ++ item :: after) :
    ∃ first ∈ item.tree.leaves, first.start = item.start ∧ first.start < first.stop ∧
        first.stop ≤ item.tree.stop := by
  have isRead := isRead_of_parse parsed
  have member : item ∈ m.items := by simp [split]
  obtain ⟨_, _, nonempty⟩ := readItem_of_parse parsed split
  obtain ⟨first, rest, leaves⟩ := List.exists_cons_of_ne_nil nonempty
  have head : first ∈ item.tree.leaves.head? := by rw [leaves]; rfl
  have inside := List.mem_of_head? head
  have noChunk := (isRead.items item member).opens.noChunk first head
  have isText := isRead.reads.isText (show first ∈ m.tokens by simp [tokens_split split, inside]) noChunk
  exact ⟨first, inside, (start_eq head).symm, Nat.lt_of_sub_pos isText.2.pos, stop_le_tree_stop isRead member inside⟩

/-- Of an item that is no wiring, no edit takes out all. -/
theorem lt_of_removes (parsed : parse? source = some m) (split : m.items = before ++ item :: after)
    (left : item.kind.isWiring = false) (edit : e ∈ m.edits) (removes : e.replacement = []) :
    item.start < e.span.start ∨ e.span.stop < item.tree.stop := by
  have isRead := isRead_of_parse parsed
  obtain ⟨first, inside, start, pos, stop⟩ := exists_first parsed split
  obtain ⟨owner, owned, editFor⟩ := mem_edits.mp edit
  rw [split, List.mem_append, List.mem_cons] at owned
  rcases owned with earlier | rfl | later
  · obtain ⟨front, others, same⟩ := List.append_of_mem earlier
    have split' : m.items = front ++ owner :: (others ++ item :: after) := by
      rw [split, same]
      simp
    obtain ⟨_, read, _⟩ := readItem_of_parse parsed split'
    have behind : first ∈ tokensOf (others ++ item :: after) := List.mem_flatMap.mpr ⟨item, by simp, inside⟩
    have clear := editFor.stop_le isRead split' (fun isWiring => (wires_of_readItem read isWiring).2) behind
    omega
  · obtain ⟨_, read, _⟩ := readItem_of_parse parsed split
    exact Or.inr (editFor.lt_stop isRead split left removes (keywords_lt_of_readItem read))
  · obtain ⟨front, others, same⟩ := List.append_of_mem later
    have split' : m.items = (before ++ item :: front) ++ owner :: others := by
      rw [split, same]
      simp
    have ahead : first ∈ tokensOf (before ++ item :: front) := List.mem_flatMap.mpr ⟨item, by simp, inside⟩
    have clear := editFor.le_start isRead split' ahead
    omega

/-- Exactly the wiring is taken out whole. -/
theorem takesWhole_eq (parsed : parse? source = some m) (member : item ∈ m.items) :
    m.takesWhole item = item.kind.isWiring := by
  rw [Bool.eq_iff_iff, takesWhole_iff]
  constructor
  · rintro ⟨e, edit, removes, starts, stops⟩
    by_contra other
    have left : item.kind.isWiring = false := by simpa using other
    have whole : item.stop = item.tree.stop := by
      unfold Item.stop
      split
      · next isAs =>
        rw [isAs] at left
        cases left
      · rfl
    obtain ⟨before, after, split⟩ := List.append_of_mem member
    have missed := lt_of_removes parsed split left edit removes
    omega
  · intro isWiring
    refine ⟨.remove item.start (statementStop m.text item.stop), mem_edits.mpr ⟨item, member, Or.inl ?_⟩,
      rfl, Nat.le_refl _, ?_⟩
    · rw [wiringEdits_of_isWiring isWiring]
      exact List.mem_singleton_self _
    · exact le_statementStop m.text item.stop

/-- The modules that a module depends on are the strings in what is taken out of it whole, in the order of the
source. What is taken out whole holds the one string that it is recorded with, or is a list of exports and holds
none. All that is left is recorded with none. -/
theorem sources_taken (parsed : parse? source = some m) :
    m.sources = (m.items.filter m.takesWhole).flatMap (fun item => textsOf item.tree.leaves) ∧
      ∀ item ∈ m.items,
        (m.takesWhole item = true → textsOf item.tree.leaves = item.kind.source?.toList ∧
          (item.kind.source? = none → item.kind = .exportList)) ∧
        (m.takesWhole item = false → item.kind.source? = none) := by
  have taken (item : Item) (member : item ∈ m.items) (whole : m.takesWhole item = true) :
      textsOf item.tree.leaves = item.kind.source?.toList := by
    obtain ⟨before, after, split⟩ := List.append_of_mem member
    obtain ⟨_, read, _⟩ := readItem_of_parse parsed split
    rw [takesWhole_eq parsed member] at whole
    exact (wires_of_readItem read whole).1
  have left (item : Item) (member : item ∈ m.items) (whole : m.takesWhole item = false) :
      item.kind.source? = none := by
    rw [takesWhole_eq parsed member] at whole
    exact ItemKind.source?_of_not_isWiring whole
  refine ⟨?_, fun item member => ⟨fun whole => ⟨taken item member whole, fun none => ?_⟩, left item member⟩⟩
  · have kept : m.sources = (m.items.filter m.takesWhole).filterMap fun item => item.kind.source? := by
      rw [sources, List.filterMap_filter]
      refine List.filterMap_congr fun item member => ?_
      split
      · rfl
      · next other => exact left item member (by simpa using other)
    rw [kept, List.filterMap_eq_flatMap_toList]
    exact List.flatMap_congr fun item inside =>
      (taken item (List.mem_filter.mp inside).1 (List.mem_filter.mp inside).2).symm
  · rw [takesWhole_eq parsed member] at whole
    exact ItemKind.eq_exportList whole none

/-- An import, a list of exports, an export of another module under one name and a statement between them. -/
theorem sources_taken_of_two : ∃ m, parse? "import 'a';b;export{};export*as x from'c'".toList = some m ∧
    m.items.map m.takesWhole = [true, false, true, true] ∧ m.sources = ["a", "c"] ∧
    m.sources = (m.items.filter m.takesWhole).flatMap fun item => textsOf item.tree.leaves := by
  have read : (parse? "import 'a';b;export{};export*as x from'c'".toList).map
    (fun m => (m.items.map m.takesWhole, m.sources)) =
      some ([true, false, true, true], ["a", "c"]) := by
    decide +kernel
  obtain ⟨m, parsed, eq⟩ := Option.map_eq_some_iff.mp read
  obtain ⟨taken, names⟩ := Prod.mk.inj eq
  exact ⟨m, parsed, taken, names, (sources_taken parsed).1⟩

end Module

end ModuleBundler.Script
