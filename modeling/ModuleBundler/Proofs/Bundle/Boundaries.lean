import ModuleBundler.Bundle
import ModuleBundler.Proofs.Script.Edits
import ModuleBundler.Proofs.Script.Stripping

/-!
When the statements of a bundle are those of its parts.

The parts of a bundle are the texts of its modules and of its entry module. Only line breaks and a comment stand
between two of them, so a part that does not end its last statement by itself may go on in the next one. The parts
keep their statements exactly if each of these is read again at its own tokens
(`Bundle.keepsStatements_of_readsAt`, `Bundle.readsAt_of_keepsStatements`).
-/

namespace ModuleBundler

open Script (Module Item Token tokensOf ReadsAt StandsAt readItem readItems lengthOf)

/-- Whether an item is read from its own tokens in front of those behind it without a look any further. -/
def Script.Item.EndsWithin (behind : List Token) (item : Item) : Prop :=
  readItem (Script.Grammar.reader true (Module.depthFor (item.tree.leaves ++ behind))) (item.tree.leaves ++ behind) =
    some (item, behind)

namespace Bundle

variable {bundle : Bundle} {modules front back : List Module} {m : Module} {before after : List Item} {item : Item}

/-- The texts that a bundle is made of. -/
def parts (bundle : Bundle) : List String := bundle.fragments.map Fragment.text ++ bundle.entry.toList

/-- Whether the text of a bundle is read into the items of some modules in their order, apart from their places. -/
def KeepsStatements (bundle : Bundle) (modules : List Module) : Prop :=
  ∃ script, Module.parse? bundle.text.toList = some script ∧
    (script.items.map fun item => (item.kind, item.tree.bare)) =
      (modules.flatMap Module.items).map fun item => (item.kind, item.tree.bare)

/-- How many tokens stand before an item, if its module stands behind others. -/
def place (front : List Module) (before : List Item) : Nat := (tokensOf (front.flatMap Module.items ++ before)).length

theorem lengthOf_bare (items : List Item) : lengthOf (fun item => item.tree.bare) items =
    (tokensOf items).length := by
  induction items with
  | nil => rfl
  | cons item items ih =>
    rw [Script.lengthOf_cons, ih, Script.Tree.leaves_bare, List.length_map, tokensOf, tokensOf, List.flatMap_cons,
      List.length_append]

/-- No byte order mark stands before the text of a bundle. -/
theorem withoutByteOrderMark_text (bundle : Bundle) :
    Module.withoutByteOrderMark bundle.text.toList = bundle.text.toList := by
  have slash (rest : List Char) : Module.withoutByteOrderMark ('/' :: rest) = '/' :: rest := by
    rw [Module.withoutByteOrderMark, if_neg (by decide)]
  rcases bundle with ⟨_ | ⟨fragment, fragments⟩, _ | entry⟩
  · rfl
  · simp [text, entryMark, provenance, slash]
  all_goals simp [text, Fragment.block, provenance, slash]

theorem parse?_eq (source : List Char) :
    Module.parse? source = (Script.Lexer.tokenize? (Module.withoutByteOrderMark source)).bind fun tokens =>
      (readItems (Script.Grammar.reader false (Module.depthFor tokens)) (tokens.length + 1) tokens).map
        fun items => ⟨Module.withoutByteOrderMark source, items⟩ := by
  unfold Module.parse?
  simp only
  cases Script.Lexer.tokenize? (Module.withoutByteOrderMark source) with
  | none => rfl
  | some tokens =>
    simp only [Module.itemsOf?_eq]
    rfl

/-- An item of some modules is an item of one of them. -/
theorem split_items {earlier later : List Item} (split : modules.flatMap Module.items = earlier ++ item :: later) :
    ∃ front m back before after, modules = front ++ m :: back ∧ m.items = before ++ item :: after ∧
      earlier = front.flatMap Module.items ++ before := by
  induction modules generalizing earlier with
  | nil => simp at split
  | cons m modules ih =>
    rw [List.flatMap_cons] at split
    rcases List.append_eq_append_iff.mp split with ⟨others, rfl, rest⟩ | ⟨others, eq, rest⟩
    · obtain ⟨front, m', back, before, after, rfl, eq, rfl⟩ := ih rest
      exact ⟨m :: front, m', back, before, after, rfl, eq, by rw [List.flatMap_cons, List.append_assoc]⟩
    · cases others with
      | nil =>
        obtain ⟨front, m', back, before, after, rfl, eq', none⟩ := @ih [] rest.symm
        refine ⟨m :: front, m', back, before, after, rfl, eq', ?_⟩
        rw [List.flatMap_cons, List.append_assoc, ← none, eq]
        simp
      | cons first others =>
        obtain ⟨rfl, rfl⟩ := List.cons.inj rest
        exact ⟨[], m, modules, earlier, others, rfl, eq, rfl⟩

theorem leaves_ne_nil {source : List Char} (parsed : Module.parse? source = some m) (member : item ∈ m.items) :
    item.tree.leaves ≠ [] := by
  obtain ⟨before, after, split⟩ := List.append_of_mem member
  rw [parse?_eq] at parsed
  obtain ⟨tokens, _, parsed⟩ := Option.bind_eq_some_iff.mp parsed
  obtain ⟨items, isItems, rfl⟩ := Option.map_eq_some_iff.mp parsed
  obtain ⟨nonempty, _⟩ := (Script.readsAt_of_readItems isItems rfl).2 before item after split
  rw [Script.Tree.leaves_bare] at nonempty
  exact fun none => nonempty (by rw [none, List.map_nil])

/-- Each of the modules is read from a part. -/
theorem part_of_mem (parsed : bundle.parts.map (fun part => Module.parse? part.toList) = modules.map some)
    (member : m ∈ modules) :
    ∃ part : String, Module.parse? part.toList = some m := by
  have isPart : some m ∈ bundle.parts.map fun part => Module.parse? part.toList := by
    rw [parsed]
    exact List.mem_map_of_mem member
  obtain ⟨part, _, isModule⟩ := List.mem_map.mp isPart
  exact ⟨part, isModule⟩

/-- The parts keep their statements if each of these is read again at its own tokens. -/
theorem keepsStatements_of_readsAt {tokens : List Token}
    (isTokens : Script.Lexer.tokenize? bundle.text.toList = some tokens)
    (total : tokens.length = (tokensOf (modules.flatMap Module.items)).length)
    (readsAt : ∀ front m back before item after, modules = front ++ m :: back → m.items = before ++ item :: after →
      ReadsAt (Module.depthFor tokens) tokens (place front before) item.kind item.tree.bare) :
    bundle.KeepsStatements modules := by
  unfold KeepsStatements
  rw [parse?_eq, withoutByteOrderMark_text]
  rw [← lengthOf_bare] at total
  obtain ⟨items, isItems, same⟩ := Script.readItems_of_readsAt total (Nat.lt_succ_self _)
    fun earlier item later split => by
      obtain ⟨front, m, back, before, after, whole, split', rfl⟩ := split_items split
      rw [lengthOf_bare]
      exact readsAt front m back before item after whole split'
  exact ⟨_, Option.bind_eq_some_iff.mpr ⟨tokens, isTokens, Option.map_eq_some_iff.mpr ⟨items, isItems, rfl⟩⟩, same⟩

/-- If the parts keep their statements, each of these is read again at its own tokens. -/
theorem readsAt_of_keepsStatements (keeps : bundle.KeepsStatements modules) :
    ∃ tokens, Script.Lexer.tokenize? bundle.text.toList = some tokens ∧
      tokens.length = (tokensOf (modules.flatMap Module.items)).length ∧
      ∀ front m back before item after, modules = front ++ m :: back → m.items = before ++ item :: after →
        ReadsAt (Module.depthFor tokens) tokens (place front before) item.kind item.tree.bare := by
  obtain ⟨script, isScript, same⟩ := keeps
  rw [parse?_eq, withoutByteOrderMark_text] at isScript
  obtain ⟨tokens, isTokens, isScript⟩ := Option.bind_eq_some_iff.mp isScript
  obtain ⟨items, isItems, rfl⟩ := Option.map_eq_some_iff.mp isScript
  obtain ⟨total, readsAt⟩ := Script.readsAt_of_readItems isItems same
  rw [lengthOf_bare] at total
  refine ⟨tokens, isTokens, total, fun front m back before item after split split' => ?_⟩
  rw [place, ← lengthOf_bare]
  refine readsAt (front.flatMap Module.items ++ before) item (after ++ back.flatMap Module.items) ?_
  rw [split, List.flatMap_append, List.flatMap_cons, split']
  simp

end Bundle

end ModuleBundler
