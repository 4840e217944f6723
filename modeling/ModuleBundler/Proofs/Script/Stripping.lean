import Mathlib.Algebra.GroupWithZero.Nat
import ModuleBundler.Proofs.Script.Items
import ModuleBundler.Proofs.Script.Sight
import ModuleBundler.Script.Plain

/-!
When a module still says the same without its wiring.

The edits of a module keep the characters of each statement, but not what stands behind it. So the statements that
are left need not be read from the edited text again: a statement that ended at the end of its line, because an import
stood in the next one, may go on in the line behind the import.

`Module.keepsProgram_iff` tells when all statements are read again. A statement that ends by itself, or that is
settled by the statements between it and the next wiring, needs no more than that these look as they did. Only a
statement that the wiring ended must be read again in front of what has moved up to it.
-/

namespace ModuleBundler.Script

namespace Tree

def bareLeaf (lexeme : Lexeme) : Tree := leaf ⟨lexeme, 0, 0, false⟩

/-- A call of the superclass that hands nothing on. -/
def bareSuperCall : Tree :=
  node .superCall [bareLeaf (.keyword .super_), node .arguments [bareLeaf (.mark .parenL), bareLeaf (.mark .parenR)]]

mutual

/-- A tree without the places of its tokens, in which no call hands all arguments on. -/
def plain : Tree → Tree
  | leaf token => leaf token.bare
  | node kind children =>
    if kind = .superCall ∧ Module.isForwarding (node kind children) = true then bareSuperCall
    else node kind (plainAll children)

def plainAll : List Tree → List Tree
  | [] => []
  | tree :: trees => plain tree :: plainAll trees

end

/-- The tokens of a call that hands nothing on, in place of those of a call that hands all arguments on. -/
def shortened : List Token → List Token
  | super_ :: parenL :: more =>
    let opened : Token := ⟨parenL.lexeme, super_.stop, super_.stop + 1, false⟩
    let stop := (more.getLast?.map Token.stop).getD opened.stop
    [super_, opened, ⟨.mark .parenR, opened.stop, stop, false⟩]
  | tokens => tokens

mutual

/-- The tokens of a tree that are left in a script, touching each other where they do so there. -/
def remains : Tree → List Token
  | leaf token => [token]
  | node kind children =>
    if kind = .superCall ∧ Module.isForwarding (node kind children) = true then shortened (leavesOf children)
    else remainsAll children

def remainsAll : List Tree → List Token
  | [] => []
  | tree :: trees => remains tree ++ remainsAll trees

end

end Tree

/-- What an item is in a script: a statement, without the keyword that exports it. -/
def Item.plain (item : Item) : Tree :=
  match item.kind, item.tree with
  | .exportedDeclaration, .node .item (_ :: declaration)
  | .exportedConstants, .node .item (_ :: declaration) => .node .item [.node .statement (Tree.plainAll declaration)]
  | _, tree => tree.plain

/-- The tokens of an item that are left in a script. The first one moves up to where the item began. -/
def Item.remains (item : Item) : List Token :=
  match item.kind, item.tree with
  | .exportedDeclaration, .node .item (.leaf keyword :: declaration)
  | .exportedConstants, .node .item (.leaf keyword :: declaration) =>
    match Tree.remainsAll declaration with
    | first :: others => { first with start := keyword.start, afterBreak := keyword.afterBreak } :: others
    | [] => []
  | _, tree => tree.remains

/-- What has been found, if anything has. -/
def Outcome.found? {α : Type} : Outcome α → Option (α × State)
  | found a s => some (a, s)
  | refused | unknown => none

theorem Outcome.found?_andThen {α β : Type} (outcome : Outcome α) (f : α → State → Outcome β) :
    (outcome.andThen f).found? = outcome.found?.bind fun (a, s) => (f a s).found? := by
  cases outcome <;> rfl

/-- The item that tokens begin with, and the tokens behind it. -/
def readItem (r : Reader) (tokens : List Token) : Option (Item × List Token) :=
  match (Grammar.item {}).run r ⟨[], tokens⟩ with
  | .found kind ⟨[tree], rest⟩ => some (⟨kind, tree⟩, rest)
  | _ => none

/-- The items of some tokens, if there are fewer of them than a number. -/
def readItems (r : Reader) : (number : Nat) → List Token → Option (List Item)
  | 0, _ => none
  | _ + 1, [] => some []
  | number + 1, token :: tokens =>
    match readItem r (token :: tokens) with
    | some (item, rest) => (readItems r number rest).map (item :: ·)
    | none => none

section Reading

open Grammar (reader)

variable {r : Reader} {isOpen : Bool} {depth : Nat} {tokens rest : List Token} {item : Item} {items : List Item}
  {number : Nat}

/-- An item is read in the same way whatever has been read before it. -/
theorem run_item (isOpen : Bool) (depth : Nat) (built : List Tree) (tokens : List Token) :
    ((Grammar.item {}).run (reader isOpen (depth + 1)) ⟨built, tokens⟩).found? =
      (readItem (reader isOpen (depth + 1)) tokens).map fun found =>
      (found.1.kind, ⟨found.1.tree :: built, found.2⟩) := by
  obtain ⟨inner, asNode⟩ : ∃ inner, Grammar.itemRule {} = Parser.node .item inner := ⟨_, rfl⟩
  have runs (built) : (Grammar.item {}).run (reader isOpen (depth + 1)) ⟨built, tokens⟩ =
      (inner.run (reader isOpen depth) ⟨[], tokens⟩).andThen fun kind t =>
        .found kind ⟨.node .item t.built.reverse :: built, t.rest⟩ := by
    change (Grammar.itemRule {}).run (reader isOpen depth) _ = _
    rw [asNode, Parser.run]
  rw [readItem, runs, runs]
  cases inner.run (reader isOpen depth) ⟨[], tokens⟩ <;> rfl

open Script.Parser in
/-- One round of the loop that reads the items of a module. -/
def round (kinds : List ItemKind) : Parser (Option (List ItemKind)) := do
  if ← atEnd then return none
  return some ((← Grammar.item {}) :: kinds)

theorem run_round (depth : Nat) (kinds : List ItemKind) (built : List Tree) (token : Token) (tokens : List Token) :
    ((round kinds).run (reader false (depth + 1)) ⟨built, token :: tokens⟩).found? =
      (readItem (reader false (depth + 1)) (token :: tokens)).map fun found =>
        (some (found.1.kind :: kinds), ⟨found.1.tree :: built, found.2⟩) := by
  have runs : (round kinds).run (reader false (depth + 1)) ⟨built, token :: tokens⟩ =
      ((Grammar.item {}).run (reader false (depth + 1)) ⟨built, token :: tokens⟩).andThen fun kind t =>
        .found (some (kind :: kinds)) t := rfl
  rw [runs, Outcome.found?_andThen, run_item]
  cases readItem (reader false (depth + 1)) (token :: tokens) <;> rfl

theorem run_rounds (depth number : Nat) (kinds : List ItemKind) (built : List Tree) (tokens : List Token) :
    (Parser.rounds (fun kinds => (round kinds).run (reader false (depth + 1))) number kinds ⟨built, tokens⟩).found? =
      (readItems (reader false (depth + 1)) number tokens).map fun items =>
        ((items.map Item.kind).reverse ++ kinds, ⟨(items.map Item.tree).reverse ++ built, []⟩) := by
  induction number generalizing kinds built tokens with
  | zero => rfl
  | succ number ih =>
    rw [Parser.rounds, Outcome.found?_andThen]
    cases tokens with
    | nil => rfl
    | cons token tokens =>
      rw [run_round, readItems]
      cases readItem (reader false (depth + 1)) (token :: tokens) with
      | none => rfl
      | some found =>
        rw [Option.map_some, Option.bind_some]
        simp only [ih]
        cases readItems (reader false (depth + 1)) number found.2 <;> simp

/-- An item holds the tokens that it was read from. -/
theorem leaves_of_readItem (h : readItem (reader isOpen depth) tokens = some (item, rest)) :
    tokens = item.tree.leaves ++ rest := by
  unfold readItem at h
  split at h
  · next kind tree rest run =>
    cases h
    obtain ⟨moved, eq, row⟩ := (Parser.moves_of_run run).moved
    simp only [State.row, List.reverse_nil, List.reverse_singleton, Tree.leavesOf, List.append_nil, List.nil_append]
      at row
    rw [row]
    exact eq
  · cases h

/-- If an item holds no tokens, the items are read for ever. -/
theorem readItems_eq_none (h : readItem r tokens = some (item, tokens)) (some_ : tokens ≠ []) (number : Nat) :
    readItems r number tokens = none := by
  obtain ⟨token, more, rfl⟩ := List.exists_cons_of_ne_nil some_
  induction number with
  | zero => rfl
  | succ number ih =>
    rw [readItems, h]
    simp only [ih, Option.map_none]

theorem readItems_cons (some_ : tokens ≠ []) (h : readItems (reader isOpen depth) number tokens = some items) :
    ∃ item rest others number', items = item :: others ∧ readItem (reader isOpen depth) tokens = some (item, rest) ∧
      item.tree.leaves ≠ [] ∧ readItems (reader isOpen depth) number' rest = some others := by
  have whole := h
  obtain ⟨token, more, rfl⟩ := List.exists_cons_of_ne_nil some_
  cases number with
  | zero => cases h
  | succ number =>
    rw [readItems] at h
    split at h
    · next item rest first =>
      obtain ⟨others, read, rfl⟩ := Option.map_eq_some_iff.mp h
      refine ⟨item, rest, others, number, rfl, first, fun none => ?_, read⟩
      have same := leaves_of_readItem first
      rw [none, List.nil_append] at same
      rw [← same] at first
      rw [readItems_eq_none first some_] at whole
      cases whole
    · cases h

/-- Whether an item is read again as a statement from tokens that begin at a place of a list, up to its own end. -/
def Item.IsReadAt (depth : Nat) (tokens : List Token) (place : Nat) (item : Item) : Prop :=
  item.plain.leaves ≠ [] ∧ ∃ tree, tree.bare = item.plain ∧
    readItem (reader false depth) (tokens.drop place) =
      some (⟨.statement, tree⟩, tokens.drop (place + item.plain.leaves.length))

/-- Whether an item of a kind that looks like a tree is read from tokens that begin at a place of a list, up to
its own end. -/
def ReadsAt (depth : Nat) (tokens : List Token) (place : Nat) (kind : ItemKind) (look : Tree) : Prop :=
  look.leaves ≠ [] ∧ ∃ tree, tree.bare = look ∧
    readItem (reader false depth) (tokens.drop place) = some (⟨kind, tree⟩, tokens.drop (place + look.leaves.length))

theorem Item.isReadAt_iff {place : Nat} :
    item.IsReadAt depth tokens place ↔ ReadsAt depth tokens place .statement item.plain := Iff.rfl

theorem length_leaves_of_bare {tree look : Tree} (same : tree.bare = look) :
    look.leaves.length = tree.leaves.length := by
  rw [← same, Tree.leaves_bare, List.length_map]

/-- Whether tokens stand in a list, from a place on, just as they look. -/
def StandsAt (tokens : List Token) (place : Nat) (seen : List Token) : Prop :=
  Glimpse.view true seen <+: Glimpse.view true (tokens.drop place)

/-- Whether an item is read as a statement from its own tokens in front of some others, without a look at what stands
behind those. -/
def Item.IsSettledBy (behind : List Token) (item : Item) : Prop :=
  item.remains ≠ [] ∧ ∃ tree, tree.bare = item.plain ∧
    readItem (reader true (Module.depthFor (item.remains ++ behind))) (item.remains ++ behind) =
      some (⟨.statement, tree⟩, behind)

theorem readItem_foretold {seen : List Token} {depth' : Nat} {tree : Tree} {kind : ItemKind} (deeper : depth ≤ depth')
    (leads : Glimpse.view true seen <+: Glimpse.view true tokens)
    (whole : isOpen = false → seen.length = tokens.length)
    (h : readItem (reader isOpen depth) seen = some (⟨kind, tree⟩, rest)) :
    ∃ tree' rest', tree.bare = tree'.bare ∧ readItem (reader false depth') tokens = some (⟨kind, tree'⟩, rest') := by
  unfold readItem at h
  split at h
  · next kind tree rest run =>
    cases h
    have sees : State.Foreshadows isOpen ⟨[], seen⟩ ⟨[], tokens⟩ := ⟨rfl, leads, whole⟩
    have settled := Parser.foretells_run (Grammar.foretells_reader (fun _ => rfl) deeper) (Grammar.item {})
      ((Grammar.isOpen_reader isOpen depth).symm ▸ sees)
    rw [run, Grammar.isOpen_reader] at settled
    obtain ⟨⟨built, rest'⟩, run', same⟩ := settled
    obtain ⟨tree', rfl⟩ : ∃ tree', built = [tree'] := by
      have one := congrArg List.length same.built
      rw [Tree.bareAll_eq_map, Tree.bareAll_eq_map, List.length_map, List.length_map] at one
      exact List.length_eq_one_iff.mp one.symm
    refine ⟨tree', rest', (List.cons.inj same.built).1, ?_⟩
    unfold readItem
    rw [run']
  · cases h

theorem readsAt_of_foretold {seen : List Token} {place depth' : Nat} {kind : ItemKind} {tree : Tree}
    (nonempty : tree.leaves ≠ [])
    (deeper : depth ≤ depth') (read : readItem (reader isOpen depth) seen = some (⟨kind, tree⟩, rest))
    (stands : StandsAt tokens place seen) (whole : isOpen = false → seen.length = (tokens.drop place).length) :
    ReadsAt depth' tokens place kind tree.bare := by
  obtain ⟨tree', rest, same, read⟩ := readItem_foretold deeper stands whole read
  have length := length_leaves_of_bare same.symm
  have all := leaves_of_readItem read
  refine ⟨fun none => nonempty ?_, tree', same.symm, ?_⟩
  · rw [Tree.leaves_bare] at none
    exact List.map_eq_nil_iff.mp none
  · rw [read, ← List.drop_drop, all, length, List.drop_left]

theorem depthFor_le {seen tokens : List Token} (fewer : seen.length ≤ tokens.length) :
    Module.depthFor seen ≤ Module.depthFor tokens := by
  unfold Module.depthFor
  omega

/-- What is read without a look behind some tokens is read wherever these stand. -/
theorem readsAt_of_alone {seen : List Token} {place : Nat} {kind : ItemKind} {tree : Tree}
    (nonempty : tree.leaves ≠ [])
    (alone : readItem (reader true (Module.depthFor seen)) seen = some (⟨kind, tree⟩, rest))
    (stands : StandsAt tokens place seen) :
    ReadsAt (Module.depthFor tokens) tokens place kind tree.bare := by
  have fewer : seen.length ≤ tokens.length := by
    have shorter := stands.length_le
    rw [Glimpse.length_view, Glimpse.length_view, List.length_drop] at shorter
    exact Nat.le_trans shorter (Nat.sub_le _ _)
  exact readsAt_of_foretold nonempty (depthFor_le fewer) alone stands (by simp)

/-- An item that is settled by some tokens is read again wherever it stands in front of them. -/
theorem Item.IsSettledBy.isReadAt {behind : List Token} {place : Nat} (settled : item.IsSettledBy behind)
    (stands : StandsAt tokens place (item.remains ++ behind)) :
        item.IsReadAt (Module.depthFor tokens) tokens place := by
  obtain ⟨nonempty, tree, bare, alone⟩ := settled
  have some_ : tree.leaves ≠ [] := by
    intro none
    have nothing := leaves_of_readItem alone
    rw [none] at nothing
    exact nonempty (List.append_cancel_right nothing)
  rw [Item.isReadAt_iff, ← bare]
  exact readsAt_of_alone some_ alone stands

section Row

variable {read : List Item} {kind : Item → ItemKind} {look : Item → Tree}

/-- How many tokens some items are, each by what it looks like. -/
def lengthOf (look : Item → Tree) (items : List Item) : Nat := (items.map fun item => (look item).leaves.length).sum

theorem lengthOf_cons : lengthOf look (item :: items) = (look item).leaves.length + lengthOf look items := by
  rw [lengthOf, List.map_cons, List.sum_cons, lengthOf]

theorem readsAt_of_readItems (h : readItems (reader false depth) number tokens = some read)
    (same : (read.map fun item => (item.kind, item.tree.bare)) = items.map fun item => (kind item, look item)) :
    tokens.length = lengthOf look items ∧ ∀ before item after, items = before ++ item :: after →
      ReadsAt depth tokens (lengthOf look before) (kind item) (look item) := by
  induction items generalizing tokens number read with
  | nil =>
    obtain rfl := List.map_eq_nil_iff.mp same
    refine ⟨?_, fun before item after split => by simp at split⟩
    by_contra some_
    obtain ⟨_, _, _, _, none, _⟩ := readItems_cons (fun none => some_ (congrArg List.length none)) h
    cases none
  | cons expected items ih =>
    have some_ : tokens ≠ [] := by
      rintro rfl
      cases number with
      | zero => cases h
      | succ number =>
        cases h
        cases same
    obtain ⟨first, rest, others, number', rfl, atFirst, nonempty, later⟩ := readItems_cons some_ h
    obtain ⟨head, same⟩ := List.cons.inj same
    obtain ⟨sameKind, bare⟩ := Prod.mk.inj head
    have length := length_leaves_of_bare bare
    have whole := leaves_of_readItem atFirst
    have behind : tokens.drop (look expected).leaves.length = rest := by rw [length, whole, List.drop_left]
    obtain ⟨total, ih⟩ := ih later same
    refine ⟨?_, fun before item after split => ?_⟩
    · rw [lengthOf_cons, ← total, whole, List.length_append, length]
    · cases before with
      | nil =>
        cases split
        refine ⟨fun none => nonempty (List.length_eq_zero_iff.mp ?_), first.tree, bare, ?_⟩
        · rw [← length, none, List.length_nil]
        · rw [lengthOf, List.map_nil, List.sum_nil, Nat.zero_add, behind, ← sameKind]
          exact atFirst
      | cons _ before =>
        cases split
        obtain ⟨moves, tree, bare', read'⟩ := ih before item after rfl
        refine ⟨moves, tree, bare', ?_⟩
        rw [lengthOf_cons, Nat.add_assoc, ← List.drop_drop, ← List.drop_drop, behind]
        exact read'

theorem readItems_of_readsAt (total : tokens.length = lengthOf look items) (enough : tokens.length < number)
    (readsAt : ∀ before item after, items = before ++ item :: after →
      ReadsAt depth tokens (lengthOf look before) (kind item) (look item)) :
    ∃ read, readItems (reader false depth) number tokens = some read ∧
      (read.map fun item => (item.kind, item.tree.bare)) = items.map fun item => (kind item, look item) := by
  induction items generalizing tokens number with
  | nil =>
    obtain rfl := List.length_eq_zero_iff.mp total
    obtain ⟨number, rfl⟩ := Nat.exists_eq_succ_of_ne_zero (Nat.ne_of_gt enough)
    exact ⟨[], rfl, rfl⟩
  | cons expected items ih =>
    obtain ⟨moves, tree, bare, atFirst⟩ := readsAt [] expected items rfl
    rw [lengthOf, List.map_nil, List.sum_nil, Nat.zero_add, List.drop_zero] at atFirst
    have positive := List.length_pos_iff.mpr moves
    rw [lengthOf_cons] at total
    obtain ⟨number, rfl⟩ := Nat.exists_eq_succ_of_ne_zero (Nat.ne_of_gt (Nat.lt_of_le_of_lt (Nat.zero_le _) enough))
    obtain ⟨read, later, same⟩ := @ih (tokens.drop (look expected).leaves.length) number
      (by rw [List.length_drop]; omega) (by rw [List.length_drop]; omega) fun before item after split => by
        obtain ⟨moves, tree, bare, here⟩ := readsAt (expected :: before) item after (by rw [split]; rfl)
        refine ⟨moves, tree, bare, ?_⟩
        rw [lengthOf_cons, Nat.add_assoc, ← List.drop_drop, ← List.drop_drop] at here
        exact here
    refine ⟨⟨kind expected, tree⟩ :: read, ?_, ?_⟩
    · cases tokens with
      | nil =>
        rw [List.length_nil] at total
        omega
      | cons token tokens => rw [readItems, atFirst]; simp only [later, Option.map_some]
    · rw [List.map_cons, List.map_cons, same, bare]

end Row

/-- How many tokens some items are in a script. -/
def plainLength (items : List Item) : Nat := (items.map fun item => item.plain.leaves.length).sum

theorem isReadAt_of_readItems {read : List Item} (h : readItems (reader false depth) number tokens = some read)
    (same : (read.map fun item => (item.kind, item.tree.bare)) =
      items.map fun item => (ItemKind.statement, item.plain)) :
    tokens.length = plainLength items ∧
      ∀ before item after, items = before ++ item :: after → item.IsReadAt depth tokens (plainLength before) :=
  readsAt_of_readItems h same

theorem readItems_of_isReadAt (total : tokens.length = plainLength items) (enough : tokens.length < number)
    (isRead : ∀ before item after, items = before ++ item :: after →
      item.IsReadAt depth tokens (plainLength before)) :
    ∃ read, readItems (reader false depth) number tokens = some read ∧
      (read.map fun item => (item.kind, item.tree.bare)) = items.map fun item => (ItemKind.statement, item.plain) :=
  readItems_of_readsAt total enough isRead

end Reading

namespace Module

/-- The items that are left in a script. -/
def statements (items : List Item) : List Item := items.filter fun item => !item.kind.isWiring

theorem statements_split {items before after : List Item} {item : Item} (split : items = before ++ item :: after)
    (left : item.kind.isWiring = false) : statements items = statements before ++ item :: statements after := by
  rw [split, statements, List.filter_append, List.filter_cons_of_pos (by simp [left]), ← statements, ← statements]

theorem split_statements {items before after : List Item} {item : Item}
    (split : statements items = before ++ item :: after) :
    ∃ before' after', items = before' ++ item :: after' ∧ statements before' = before ∧ statements after' = after ∧
      item.kind.isWiring = false := by
  obtain ⟨front, back, whole, rfl, rest⟩ := List.filter_eq_append_iff.mp split
  obtain ⟨wiring, others, rfl, gone, left, rfl⟩ := List.filter_eq_cons_iff.mp rest
  refine ⟨front ++ wiring, others, ?_, ?_, rfl, by simpa using left⟩
  · rw [whole, List.append_assoc]
  · rw [statements, List.filter_append, List.filter_eq_nil_iff.mpr gone, List.append_nil]

theorem itemsOf?_eq (tokens : List Token) :
    itemsOf? tokens = readItems (Grammar.reader false (depthFor tokens)) (tokens.length + 1) tokens := by
  have found : itemsOf? tokens =
      (itemsParser.run (Grammar.reader false (depthFor tokens)) ⟨[], tokens⟩).found?.map fun (kinds, s) =>
        (List.zipWith Item.mk kinds s.built).reverse := by
    unfold itemsOf?
    cases itemsParser.run (Grammar.reader false (depthFor tokens)) ⟨[], tokens⟩ <;> rfl
  have rounds := run_rounds (4 * tokens.length + 31) (tokens.length + 1) [] [] tokens
  rw [found]
  change (Outcome.found? (Parser.rounds (fun kinds => (round kinds).run (Grammar.reader false (depthFor tokens)))
    (tokens.length + 1) [] ⟨[], tokens⟩)).map _ = _
  rw [depthFor, rounds, Option.map_map]
  cases readItems (Grammar.reader false (4 * tokens.length + 31 + 1)) (tokens.length + 1) tokens with
  | none => rfl
  | some items =>
    simp only [Option.map_some, Function.comp_apply, List.append_nil]
    congr 1
    rw [List.reverse_zipWith (by simp), List.reverse_reverse, List.reverse_reverse,
      List.zipWith_map, List.zipWith_self]
    exact List.map_id _

/-- Whether the statements that are left in a script are read from its text again, apart from their places. -/
def KeepsProgram (m : Module) : Prop :=
  ∃ script, parse? m.edited = some script ∧
    (script.items.map fun item => (item.kind, item.tree.bare)) = (statements m.items).map fun item =>
    (ItemKind.statement, item.plain)

/-- The tokens that stand between an item and the next wiring, as far as they are left in a script. -/
def near (after : List Item) : List Token := (after.takeWhile fun item => !item.kind.isWiring).flatMap Item.remains

/-- The statements that are left in a script are read again exactly if its text is read into as many tokens as
they have, and each of them either is settled by the tokens between it and the next wiring, which look there as
they do in the module, or is read at its own tokens in front of those that have moved up to it. -/
theorem keepsProgram_iff (m : Module) : m.KeepsProgram ↔
    ∃ tokens, Lexer.tokenize? (withoutByteOrderMark m.edited) = some tokens ∧
      tokens.length = plainLength (statements m.items) ∧
      ∀ before item after, m.items = before ++ item :: after → item.kind.isWiring = false →
        (item.IsSettledBy (near after) ∧
            StandsAt tokens (plainLength (statements before)) (item.remains ++ near after)) ∨
          item.IsReadAt (depthFor tokens) tokens (plainLength (statements before)) := by
  constructor
  · rintro ⟨script, parsed, same⟩
    unfold parse? at parsed
    simp only at parsed
    split at parsed
    · next tokens isTokens =>
      obtain ⟨items, isItems, rfl⟩ := Option.map_eq_some_iff.mp parsed
      rw [itemsOf?_eq] at isItems
      obtain ⟨total, isRead⟩ := isReadAt_of_readItems isItems same
      refine ⟨tokens, isTokens, total, fun before item after split left => Or.inr ?_⟩
      exact isRead (statements before) item (statements after) (statements_split split left)
    · cases parsed
  · rintro ⟨tokens, isTokens, total, survives⟩
    have isRead (before : List Item) (item : Item) (after : List Item)
      (split : statements m.items = before ++ item :: after) :
        item.IsReadAt (depthFor tokens) tokens (plainLength before) := by
      obtain ⟨before, after, whole, rfl, rfl, left⟩ := split_statements split
      rcases survives before item after whole left with ⟨settled, stands⟩ | read
      · exact settled.isReadAt stands
      · exact read
    obtain ⟨items, isItems, same⟩ := readItems_of_isReadAt total (Nat.lt_succ_self _) isRead
    refine ⟨⟨withoutByteOrderMark m.edited, items⟩, ?_, same⟩
    unfold parse?
    simp only [isTokens]
    rw [itemsOf?_eq, isItems, Option.map_some]

/-- Without the import between them, two statements become a call. -/
theorem not_keepsProgram_behind_import : ∃ m, parse? "a\nimport x from './x'\n(b)".toList = some m ∧
    m.items.map Item.kind = [.statement, .importing [.byDefault "x"] "./x", .statement] ∧ ¬m.KeepsProgram := by
  have read : (parse? "a\nimport x from './x'\n(b)".toList).map (fun m =>
      (m.items.map Item.kind, (parse? m.edited).map fun script => script.items.length)) =
        some ([.statement, .importing [.byDefault "x"] "./x", .statement], some 1) := by
    decide +kernel
  obtain ⟨m, parsed, eq⟩ := Option.map_eq_some_iff.mp read
  obtain ⟨kinds, one⟩ := Prod.mk.inj eq
  refine ⟨m, parsed, kinds, fun ⟨script, again, same⟩ => ?_⟩
  rw [again] at one
  have left : (statements m.items).length = 2 := by
    have kept : (statements m.items).map Item.kind = [.statement, .statement] := by
      have filtered := congrArg (List.filter fun kind => !kind.isWiring) kinds
      rw [List.filter_map] at filtered
      exact filtered
    simpa using congrArg List.length kept
  have length := congrArg List.length same
  rw [List.length_map, List.length_map, left] at length
  rw [Option.map_some, length] at one
  cases one

end Module

end ModuleBundler.Script
