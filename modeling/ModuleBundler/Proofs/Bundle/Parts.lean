import ModuleBundler.Proofs.Bundle.Boundaries
import ModuleBundler.Proofs.Script.Joining

/-!
Parts that can be put one behind the other.

A part that ends by itself is read into the same tokens and the same items whatever part stands behind it: the
lexer has come to rest at its end, and no item of it is read with a look behind the part. The last part may end in
any way. All other items must be read again in front of what stands there in the bundle
(`Bundle.keepsStatements_iff`).
-/

namespace ModuleBundler

open Script (Module Item Token tokensOf ReadsAt StandsAt readItem readItems lengthOf Glimpse)
open Script.Lexer (Situation Reads scan trivia hashBang)

namespace Script

theorem Glimpse.behind_moved (d : Nat) (before : Token) (tokens : List Token) :
    Glimpse.behind (before.moved d) (tokens.map (Token.moved d)) = Glimpse.behind before tokens := by
  induction tokens generalizing before with
  | nil => rfl
  | cons token tokens ih =>
    have touches : ((token.moved d).start = (before.moved d).stop) = (token.start = before.stop) :=
      propext Nat.add_right_cancel_iff
    rw [List.map_cons, Glimpse.behind, Glimpse.behind, ih]
    simp only [touches]
    rfl

/-- Tokens that have moved together look as before. -/
theorem Glimpse.view_moved (isFresh : Bool) (d : Nat) (tokens : List Token) :
    Glimpse.view isFresh (tokens.map (Token.moved d)) = Glimpse.view isFresh tokens := by
  cases tokens with
  | nil => rfl
  | cons token tokens =>
    rw [List.map_cons, Glimpse.view, Glimpse.view, Glimpse.behind_moved]
    rfl

theorem Glimpse.behind_append (before : Token) (tokens more : List Token) :
    Glimpse.behind before tokens <+: Glimpse.behind before (tokens ++ more) := by
  induction tokens generalizing before with
  | nil => exact List.nil_prefix
  | cons token tokens ih =>
    rw [List.cons_append, Glimpse.behind, Glimpse.behind]
    exact List.prefix_cons_inj _ |>.mpr (ih token)

theorem Glimpse.view_append (isFresh : Bool) (tokens more : List Token) :
    Glimpse.view isFresh tokens <+: Glimpse.view isFresh (tokens ++ more) := by
  cases tokens with
  | nil => exact List.nil_prefix
  | cons token tokens =>
    rw [List.cons_append, Glimpse.view, Glimpse.view]
    exact List.prefix_cons_inj _ |>.mpr (Glimpse.behind_append token tokens more)

theorem tokens_split {m : Module} {before after : List Item} {item : Item}
    (split : m.items = before ++ item :: after) :
    m.tokens = tokensOf before ++ (item.tree.leaves ++ tokensOf after) := by
  rw [Module.tokens, split, tokensOf, tokensOf, List.flatMap_append, List.flatMap_cons]

/-- The tokens of some modules, one behind the other. -/
inductive LaidOut : List Module → List Token → Prop
  | nil : LaidOut [] []
  | cons {m : Module} {modules : List Module} {tokens : List Token} (d : Nat) :
      LaidOut modules tokens → LaidOut (m :: modules) (m.tokens.map (Token.moved d) ++ tokens)

namespace LaidOut

variable {modules others front back : List Module} {m : Module} {tokens more : List Token}

theorem append (first : LaidOut modules tokens) (second : LaidOut others more) :
    LaidOut (modules ++ others) (tokens ++ more) := by
  induction first with
  | nil => exact second
  | cons d _ ih =>
    rw [List.cons_append, List.append_assoc]
    exact .cons d ih

theorem length_eq (laid : LaidOut modules tokens) :
    tokens.length = (tokensOf (modules.flatMap Module.items)).length := by
  induction laid with
  | nil => rfl
  | cons d _ ih =>
    rw [List.flatMap_cons, tokensOf, List.flatMap_append, List.length_append, List.length_append, List.length_map, ih]
    rfl

theorem split (laid : LaidOut modules tokens) (whole : modules = front ++ m :: back) :
    ∃ before d after, tokens = before ++ (m.tokens.map (Token.moved d) ++ after) ∧ LaidOut front before ∧
        LaidOut back after := by
  induction laid generalizing front with
  | nil => simp at whole
  | @cons first modules tokens d later ih =>
    cases front with
    | nil =>
      obtain ⟨rfl, rfl⟩ := List.cons.inj whole
      exact ⟨[], d, tokens, rfl, .nil, later⟩
    | cons _ front =>
      rw [List.cons_append] at whole
      obtain ⟨rfl, rest⟩ := List.cons.inj whole
      obtain ⟨before, d', after, rfl, isFront, isBack⟩ := ih rest
      exact ⟨_, d', after, (List.append_assoc _ _ _).symm, .cons d isFront, isBack⟩

/-- At the place of an item stand the tokens of its module from there on. -/
theorem drop_place (laid : LaidOut modules tokens) (whole : modules = front ++ m :: back)
    {before after : List Item} {item : Item}
    (split : m.items = before ++ item :: after) : ∃ d later, LaidOut back later ∧
      tokens.drop (Bundle.place front before) = (item.tree.leaves ++ tokensOf after).map (Token.moved d) ++
          later := by
  obtain ⟨first, d, later, rfl, isFront, isBack⟩ := laid.split whole
  refine ⟨d, later, isBack, ?_⟩
  have place : Bundle.place front before = first.length + (tokensOf before).length := by
    rw [Bundle.place, isFront.length_eq, tokensOf, List.flatMap_append, List.length_append]
    rfl
  rw [place, ← List.drop_drop, List.drop_left, tokens_split split, List.map_append, List.append_assoc,
    List.drop_left' (by rw [List.length_map])]

end LaidOut

end Script

/-- Whether a module ends without a look at what may follow it. -/
structure Script.Module.EndsItself (m : Module) : Prop where
  rests : (Situation.initial.behind m.tokens).Rests
  within : ∀ before item after, m.items = before ++ item :: after → item.EndsWithin (tokensOf after)

instance : DecidableEq Item := fun a b =>
  decidable_of_iff (a.kind = b.kind ∧ a.tree = b.tree)
    ⟨fun same => congrArg₂ Item.mk same.1 same.2, fun same => same ▸ ⟨rfl, rfl⟩⟩

instance (behind : List Token) (item : Item) : Decidable (item.EndsWithin behind) := decEq _ _

theorem Script.Module.endsItself_iff {m : Module} : m.EndsItself ↔ (Situation.initial.behind m.tokens).Rests ∧
    ∀ i : Fin m.items.length, m.items[i].EndsWithin (tokensOf (m.items.drop (i + 1))) := by
  constructor
  · rintro ⟨rests, within⟩
    refine ⟨rests, fun i => within (m.items.take i) _ _ ?_⟩
    simp
  · rintro ⟨rests, within⟩
    refine ⟨rests, fun before item after split => ?_⟩
    have here := within ⟨before.length, by simp [split]⟩
    simpa [split] using here

instance (m : Module) : Decidable m.EndsItself := decidable_of_iff _ Script.Module.endsItself_iff.symm

/-- A function ends by itself, and a name does not. -/
example : (Module.parse? "function f() \x7b\x7d".toList).map (fun m => decide m.EndsItself) = some true ∧
    (Module.parse? "a".toList).map (fun m => decide m.EndsItself) = some false := by
  decide +kernel

namespace Bundle

variable {bundle : Bundle} {modules front back : List Module} {m : Module} {before after : List Item} {item : Item}
  {tokens : List Token} {fragments : List Fragment} {path source : String} {position : Nat} {read : List Token}

theorem readsAt_of_endsItself (laid : Script.LaidOut modules tokens) (whole : modules = front ++ m :: back)
    (split : m.items = before ++ item :: after) (nonempty : item.tree.leaves ≠ []) (ends : m.EndsItself) :
    ReadsAt (Module.depthFor tokens) tokens (place front before) item.kind item.tree.bare := by
  obtain ⟨d, later, _, here⟩ := laid.drop_place whole split
  refine Script.readsAt_of_alone nonempty (ends.within before item after split) ?_
  rw [StandsAt, here, ← Glimpse.view_moved true d]
  exact Glimpse.view_append true _ _

theorem readItems_of_parse {text : List Char} (parsed : Module.parse? text = some m) :
    readItems (Script.Grammar.reader false (Module.depthFor m.tokens)) (m.tokens.length + 1) m.tokens =
        some m.items := by
  have isTokens := (Module.parse_spec parsed).1
  have isText := Module.text_of_parse parsed
  rw [parse?_eq, ← isText, isTokens, Option.bind_some] at parsed
  obtain ⟨items, isItems, same⟩ := Option.map_eq_some_iff.mp parsed
  rw [isItems, ← same]

/-- The items of the last part are read again, since they end where they did. -/
theorem readsAt_of_last {text : List Char} (laid : Script.LaidOut modules tokens) (whole : modules = front ++ [m])
    (split : m.items = before ++ item :: after) (parsed : Module.parse? text = some m) :
    ReadsAt (Module.depthFor tokens) tokens (place front before) item.kind item.tree.bare := by
  obtain ⟨d, later, isLast, here⟩ := laid.drop_place whole split
  cases isLast
  rw [List.append_nil] at here
  obtain ⟨nonempty, tree, bare, read⟩ :=
    (Script.readsAt_of_readItems (readItems_of_parse parsed) rfl).2 before item after split
  have seen : m.tokens.drop (tokensOf before).length = item.tree.leaves ++ tokensOf after := by
    rw [Script.tokens_split split, List.drop_left]
  rw [lengthOf_bare, seen] at read
  have fewer : m.tokens.length ≤ tokens.length := by
    rw [laid.length_eq, whole, tokensOf, List.flatMap_append, List.flatMap_singleton, List.flatMap_append,
      List.length_append]
    exact Nat.le_add_left _ _
  rw [← bare] at nonempty ⊢
  refine Script.readsAt_of_foretold (fun none => nonempty ?_) (Script.depthFor_le fewer) read ?_ fun _ => ?_
  · rw [Script.Tree.leaves_bare, none, List.map_nil]
  · simp only [StandsAt, here, Glimpse.view_moved, List.prefix_refl]
  · rw [here, List.length_map]

theorem reads_of_parse {text : List Char} (parsed : Module.parse? text = some m) (noProgram : hashBang m.text = 0) :
    Reads m.text 0 .initial m.tokens := by
  have reads := Script.Lexer.reads_tokenize (Module.parse_spec parsed).1
  rwa [noProgram] at reads

theorem noBreak_of_all {text : List Char} (clear : (text.all fun c => !Text.isLineBreak c) = true) :
    ∀ c ∈ text, Text.isLineBreak c = false := by
  intro c member
  simpa using List.all_eq_true.mp clear c member

theorem noBreak_heading (oneLine : ∀ c ∈ path.toList, Text.isLineBreak c = false) :
    ∃ line, (provenance path).toList = '/' :: '/' :: line ∧ ∀ c ∈ line, Text.isLineBreak c = false := by
  refine ⟨" === ".toList ++ path.toList ++ " ===".toList, by simp [provenance], fun c member => ?_⟩
  rw [List.mem_append, List.mem_append] at member
  rcases member with (member | member) | member
  · exact noBreak_of_all rfl c member
  · exact oneLine c member
  · exact noBreak_of_all rfl c member

/-- The line above a part is passed over. -/
theorem scan_heading (oneLine : ∀ c ∈ path.toList, Text.isLineBreak c = false) (position : Nat) (read : List Token)
    (rest : List Char) :
    scan 0 position .initial read ((provenance path).toList ++ '\n' :: rest) =
      scan 0 (position + (provenance path).toList.length + 1) .initial read rest := by
  obtain ⟨line, heading, noBreak⟩ := noBreak_heading oneLine
  have gap : trivia .between true ('/' :: '/' :: line ++ '\n' :: rest) = _ :=
    Script.Lexer.trivia_commentLine noBreak rest
  have length : ('/' :: '/' :: line ++ ['\n']).length = line.length + 3 := by simp
  rw [heading, List.append_cons, Script.Lexer.scan_restart Situation.rests_initial, length]
  · rfl
  · rw [length, ← List.append_cons]
    exact gap

/-- So is a byte order mark before a part. -/
theorem scan_source (parsed : Module.parse? source.toList = some m) (position : Nat) (read : List Token) :
    ∃ d, ∀ more, scan 0 position .initial read (source.toList ++ more) =
      scan 0 d .initial read (m.text ++ more) := by
  rw [Module.text_of_parse parsed]
  cases source.toList with
  | nil => exact ⟨position, fun _ => rfl⟩
  | cons c rest =>
    rw [Module.withoutByteOrderMark]
    split
    · next mark =>
      refine ⟨position + 1, fun more => ?_⟩
      rw [List.cons_append, ← List.singleton_append]
      exact Script.Lexer.scan_restart Situation.rests_initial
        (Script.Lexer.trivia_byteOrderMark mark (rest ++ more))
    · exact ⟨position, fun _ => rfl⟩

theorem toList_block (fragment : Fragment) (rest : List Char) : fragment.block.toList ++ rest =
    (provenance fragment.path).toList ++ '\n' :: (fragment.text.toList ++ '\n' :: '\n' :: rest) := by
  simp [Fragment.block]

/-- The blocks of parts that end by themselves are read into the tokens of the parts. -/
theorem scan_blocks (parsed : fragments.map (fun fragment => Module.parse? fragment.text.toList) = modules.map some)
    (oneLine : ∀ fragment ∈ fragments, ∀ c ∈ fragment.path.toList, Text.isLineBreak c = false)
    (noProgram : ∀ m ∈ modules, hashBang m.text = 0) (ends : ∀ m ∈ modules, m.EndsItself)
    (position : Nat) (read : List Token) : ∃ laid stop, Script.LaidOut modules laid ∧ ∀ rest,
      scan 0 position .initial read ((fragments.flatMap fun fragment => fragment.block.toList) ++ rest) =
        scan 0 stop .initial (laid.reverse ++ read) rest := by
  induction fragments generalizing modules position read with
  | nil =>
    obtain rfl := List.map_eq_nil_iff.mp parsed.symm
    exact ⟨[], position, .nil, fun _ => rfl⟩
  | cons fragment fragments ih =>
    cases modules with
    | nil => simp at parsed
    | cons m modules =>
      rw [List.map_cons, List.map_cons] at parsed
      obtain ⟨first, others⟩ := List.cons.inj parsed
      have isFirst := List.mem_cons_self (a := m) (l := modules)
      have lines := oneLine fragment List.mem_cons_self
      obtain ⟨d, source⟩ := scan_source first (position + (provenance fragment.path).toList.length + 1) read
      have reads := reads_of_parse first (noProgram m isFirst)
      obtain ⟨laid, stop, isLaid, later⟩ := ih others
        (fun fragment member => oneLine fragment (List.mem_cons_of_mem _ member))
        (fun m member => noProgram m (List.mem_cons_of_mem _ member))
        (fun m member => ends m (List.mem_cons_of_mem _ member))
        (d + m.text.length + 1 + 1) ((m.tokens.map (Token.moved d)).reverse ++ read)
      refine ⟨_, stop, .cons d isLaid, fun rest => ?_⟩
      rw [List.flatMap_cons, List.append_assoc, toList_block, scan_heading lines, source,
        Script.Lexer.scan_text reads (ends m isFirst).rests, Script.Lexer.scan_newline, later, List.reverse_append,
        List.append_assoc]

/-- How the last part stands in the text of a bundle: below a line of its own, with no more than
line breaks behind it. -/
structure LastPart (bundle : Bundle) (fragments : List Fragment) (path source : String) (more : List Char) :
    Prop where
  text : bundle.text.toList = (fragments.flatMap fun fragment => fragment.block.toList) ++
    ((provenance path).toList ++ '\n' :: (source.toList ++ more))
  parts : bundle.parts = fragments.map Fragment.text ++ [source]
  blank : more = [] ∨ more = ['\n', '\n']
  isFragment : ∀ fragment ∈ fragments, fragment ∈ bundle.fragments
  isPath : path = "Main Entry Point" ∨ ∃ fragment ∈ bundle.fragments, fragment.path = path

theorem exists_lastPart (bundle : Bundle) :
    bundle = ⟨[], none⟩ ∨ ∃ fragments path source more, bundle.LastPart fragments path source more := by
  obtain ⟨fragments, entry⟩ := bundle
  cases entry with
  | some entry =>
    refine Or.inr ⟨fragments, _, entry, [], ?_, rfl, Or.inl rfl, fun _ member => member, Or.inl rfl⟩
    simp [text, entryMark, List.flatMap_map]
  | none =>
    rcases List.eq_nil_or_concat fragments with rfl | ⟨fragments, fragment, rfl⟩
    · exact Or.inl rfl
    · rw [List.concat_eq_append]
      refine Or.inr ⟨fragments, fragment.path, fragment.text, ['\n', '\n'], ?_, ?_, Or.inr rfl, ?_,
        Or.inr ⟨fragment, ?_, rfl⟩⟩
      · simp [text, Fragment.block, List.flatMap_map]
      · simp [parts]
      · exact fun fragment member => List.mem_append_left _ member
      · exact List.mem_append_right _ List.mem_cons_self

theorem LastPart.noBreak {more : List Char} (last : bundle.LastPart fragments path source more)
    (oneLine : ∀ fragment ∈ bundle.fragments, ∀ c ∈ fragment.path.toList, Text.isLineBreak c = false) :
    ∀ c ∈ path.toList, Text.isLineBreak c = false := by
  rcases last.isPath with rfl | ⟨fragment, member, rfl⟩
  · exact noBreak_of_all rfl
  · exact oneLine fragment member

/-- The text of a bundle names no program to run. -/
theorem hashBang_text (bundle : Bundle) : hashBang bundle.text.toList = 0 := by
  rcases bundle with ⟨_ | ⟨fragment, fragments⟩, _ | entry⟩
  · rfl
  all_goals
    simp only [text, entryMark, Fragment.block, provenance, List.map_cons, List.map_nil,
      String.join_cons, String.join_nil, String.toList_append]
    rfl

/-- The text of a bundle is read into the tokens of its parts. -/
theorem tokenize?_text (parsed : bundle.parts.map (fun part => Module.parse? part.toList) = modules.map some)
    (oneLine : ∀ fragment ∈ bundle.fragments, ∀ c ∈ fragment.path.toList, Text.isLineBreak c = false)
    (noProgram : ∀ m ∈ modules, hashBang m.text = 0) (ends : ∀ m ∈ modules.dropLast, m.EndsItself) :
    ∃ tokens, Script.Lexer.tokenize? bundle.text.toList = some tokens ∧ Script.LaidOut modules tokens := by
  rw [Script.Lexer.tokenize?, hashBang_text]
  rcases exists_lastPart bundle with rfl | ⟨fragments, path, source, more, last⟩
  · obtain rfl := List.map_eq_nil_iff.mp parsed.symm
    exact ⟨[], rfl, .nil⟩
  · rw [last.parts, List.map_append, List.map_map, List.map_singleton] at parsed
    rcases List.eq_nil_or_concat modules with rfl | ⟨modules, n, rfl⟩
    · simp at parsed
    · rw [List.concat_eq_append] at parsed noProgram ends ⊢
      rw [List.map_append, List.map_singleton] at parsed
      obtain ⟨isParts, isLast⟩ := List.append_inj' parsed rfl
      rw [List.dropLast_concat] at ends
      obtain ⟨laid, stop, isLaid, blocks⟩ := scan_blocks isParts
        (fun fragment member => oneLine fragment (last.isFragment fragment member))
        (fun m member => noProgram m (List.mem_append_left _ member)) ends 0 []
      obtain ⟨d, isSource⟩ := scan_source (List.cons.inj isLast).1 (stop + (provenance path).toList.length + 1)
        (laid.reverse ++ [])
      have reads := reads_of_parse (List.cons.inj isLast).1 (noProgram n (by simp))
      have isEnd : scan 0 d .initial (laid.reverse ++ []) (n.text ++ more) =
          some (laid ++ n.tokens.map (Token.moved d)) := by
        rw [List.append_nil]
        rcases last.blank with rfl | rfl
        · rw [Script.Lexer.scan_last reads (by simp [Script.Lexer.IsApart]) rfl, List.reverse_reverse]
        · rw [Script.Lexer.scan_last reads (Script.Lexer.isApart_newline _) rfl, List.reverse_reverse]
      refine ⟨_, ?_, isLaid.append (.cons d .nil)⟩
      rw [last.text, blocks, scan_heading (last.noBreak oneLine), isSource, isEnd, List.append_nil]

/-- A bundle of parts that end by themselves, but perhaps for the last one, keeps their statements. No line may end
in a path, and no part may name a program to run. -/
theorem keepsStatements_of_endsItself
    (parsed : bundle.parts.map (fun part => Module.parse? part.toList) = modules.map some)
    (oneLine : ∀ fragment ∈ bundle.fragments, ∀ c ∈ fragment.path.toList, Text.isLineBreak c = false)
    (noProgram : ∀ m ∈ modules, hashBang m.text = 0) (ends : ∀ m ∈ modules.dropLast, m.EndsItself) :
    bundle.KeepsStatements modules := by
  obtain ⟨tokens, isTokens, laid⟩ := tokenize?_text parsed oneLine noProgram ends
  refine keepsStatements_of_readsAt isTokens laid.length_eq fun front m back before item after whole split => ?_
  obtain ⟨part, isModule⟩ := part_of_mem parsed (show m ∈ modules by simp [whole])
  -- Only the last part has the end of the text behind it; all others must not look for it.
  cases back with
  | nil => exact readsAt_of_last laid whole split isModule
  | cons next back =>
    have notLast : m ∈ modules.dropLast := by
      rw [whole, List.dropLast_append_cons, List.dropLast_cons_cons]
      exact List.mem_append_right _ List.mem_cons_self
    exact readsAt_of_endsItself laid whole split (leaves_ne_nil isModule (by simp [split])) (ends m notLast)

/-- The statements of the parts are read again exactly if the text of the bundle is read into as many tokens as
they have, and each of them either is read without a look behind its own part, whose tokens stand there as they
did, or is read at its own tokens in front of what stands behind them in the bundle. So they are if all parts but
the last one end by themselves, no line ends in a path and no part names a program to run. -/
theorem keepsStatements_iff (parsed : bundle.parts.map (fun part => Module.parse? part.toList) = modules.map some) :
    (bundle.KeepsStatements modules ↔ ∃ tokens, Script.Lexer.tokenize? bundle.text.toList = some tokens ∧
      tokens.length = (tokensOf (modules.flatMap Module.items)).length ∧
      ∀ front m back before item after, modules = front ++ m :: back → m.items = before ++ item :: after →
        (item.EndsWithin (tokensOf after) ∧
            StandsAt tokens (place front before) (item.tree.leaves ++ tokensOf after)) ∨
          ReadsAt (Module.depthFor tokens) tokens (place front before) item.kind item.tree.bare) ∧
    ((∀ fragment ∈ bundle.fragments, ∀ c ∈ fragment.path.toList, Text.isLineBreak c = false) →
      (∀ m ∈ modules, hashBang m.text = 0) → (∀ m ∈ modules.dropLast, m.EndsItself) →
        bundle.KeepsStatements modules) := by
  refine ⟨⟨fun keeps => ?_, ?_⟩, keepsStatements_of_endsItself parsed⟩
  · obtain ⟨tokens, isTokens, total, readsAt⟩ := readsAt_of_keepsStatements keeps
    exact ⟨tokens, isTokens, total, fun front m back before item after whole split =>
      Or.inr (readsAt front m back before item after whole split)⟩
  · rintro ⟨tokens, isTokens, total, stays⟩
    refine keepsStatements_of_readsAt isTokens total fun front m back before item after whole split => ?_
    rcases stays front m back before item after whole split with ⟨ends, stands⟩ | readsAt
    · obtain ⟨part, isModule⟩ := part_of_mem parsed (show m ∈ modules by simp [whole])
      exact Script.readsAt_of_alone (leaves_ne_nil isModule (by simp [split])) ends stands
    · exact readsAt

/-- Behind a semicolon the next part begins a statement of its own. -/
theorem keepsStatements_behind_semicolon :
    let bundle : Bundle := ⟨[⟨"a.js", "a;"⟩], some "(b)"⟩
    ∃ modules, bundle.parts.map (fun part => Module.parse? part.toList) = modules.map some ∧
      (∀ m ∈ modules.dropLast, m.EndsItself) ∧ bundle.KeepsStatements modules ∧
      ∃ tokens, Script.Lexer.tokenize? bundle.text.toList = some tokens ∧
        tokens.length = (tokensOf (modules.flatMap Module.items)).length := by
  intro bundle
  have ends : (Module.parse? "a;".toList).map (fun m => decide (hashBang m.text = 0 ∧ m.EndsItself)) = some true := by
    decide +kernel
  have begins : (Module.parse? "(b)".toList).map (fun m => decide (hashBang m.text = 0)) = some true := by
    decide +kernel
  obtain ⟨m, isModule, ends⟩ := Option.map_eq_some_iff.mp ends
  obtain ⟨n, isEntry, begins⟩ := Option.map_eq_some_iff.mp begins
  obtain ⟨noProgram, ends⟩ := of_decide_eq_true ends
  have parsed : bundle.parts.map (fun part => Module.parse? part.toList) = [m, n].map some := by
    rw [show bundle.parts = ["a;", "(b)"] from rfl, List.map_cons, List.map_singleton, isModule, isEntry]
    rfl
  have endsItself : ∀ m' ∈ [m, n].dropLast, m'.EndsItself := by simpa using ends
  have oneLine : ∀ fragment ∈ bundle.fragments, ∀ c ∈ fragment.path.toList, Text.isLineBreak c = false := by
    rw [List.forall_mem_singleton]
    exact noBreak_of_all rfl
  have noPrograms : ∀ m' ∈ [m, n], hashBang m'.text = 0 := by
    simpa [noProgram] using of_decide_eq_true begins
  obtain ⟨keeps_iff, keeps⟩ := keepsStatements_iff parsed
  have keeps := keeps oneLine noPrograms endsItself
  obtain ⟨tokens, isTokens, total, _⟩ := keeps_iff.mp keeps
  exact ⟨[m, n], parsed, endsItself, keeps, tokens, isTokens, total⟩

/-- Without a semicolon before it, a part that begins with a parenthesis goes on with the
statement of the part before. -/
theorem not_keepsStatements_before_parenthesis :
    let bundle : Bundle := ⟨[⟨"a.js", "a"⟩, ⟨"b.js", "(b)"⟩], none⟩
    ∃ modules, bundle.parts.map (fun part => Module.parse? part.toList) = modules.map some ∧
      ¬bundle.KeepsStatements modules := by
  intro bundle
  have statements : ∀ part ∈ bundle.parts, (Module.parse? part.toList).map (fun m => m.items.length) = some 1 := by
    decide +kernel
  obtain ⟨m, isModule, one⟩ := Option.map_eq_some_iff.mp (statements "a" (by simp [bundle, parts]))
  obtain ⟨n, isModule', one'⟩ := Option.map_eq_some_iff.mp (statements "(b)" (by simp [bundle, parts]))
  have parsed : bundle.parts.map (fun part => Module.parse? part.toList) = [m, n].map some := by
    rw [show bundle.parts = ["a", "(b)"] from rfl, List.map_cons, List.map_singleton, isModule, isModule']
    rfl
  refine ⟨[m, n], parsed, fun ⟨script, isScript, same⟩ => ?_⟩
  have whole : (Module.parse? bundle.text.toList).map (fun script => script.items.length) = some 1 := by
    decide +kernel
  rw [isScript, Option.map_some, Option.some.injEq] at whole
  have length := congrArg List.length same
  simp [whole, one, one'] at length

end Bundle

end ModuleBundler
