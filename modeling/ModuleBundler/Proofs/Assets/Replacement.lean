import ModuleBundler.Proofs.Assets.Declaration

namespace ModuleBundler

open Script
open Text (Edit)

namespace Assets

/-- Whether an item imports an asset. It takes nothing but a default export, which it binds to the name of the asset
with the suffix, and its path begins with `./` and ends with the name of the asset and an extension of assets. -/
def Imports (o : Options) (item : Item) (asset : Asset) : Prop :=
  ∃ path, item.kind = .importing [.byDefault (asset.name ++ o.assetSuffix)] path ∧ ['.', '/'] <+: path.toList ∧
    ∃ extension ∈ o.assetExtensions, (asset.name ++ extension).toList <:+ path.toList

variable {o : Options} {assets others : Assets} {item other : Item} {asset asset' : Asset}
  {binding name source : String}
  {m : Module} {before after : List Item}

/-- The binding of an import and the suffix tell the name of the asset. -/
theorem Imports.name_eq (imports : Imports o item asset) (imports' : Imports o item asset') :
    asset.name = asset'.name := by
  obtain ⟨path, kind, _⟩ := imports
  obtain ⟨path', kind', _⟩ := imports'
  rw [kind] at kind'
  injection kind' with specifiers
  have bindings : asset.name ++ o.assetSuffix = asset'.name ++ o.assetSuffix := by simpa using specifiers
  have letters := congrArg String.toList bindings
  rw [String.toList_append, String.toList_append] at letters
  exact String.toList_inj.mp (List.append_cancel_right letters)

/-- Different assets have different names, so an import takes one asset at most. -/
theorem Imports.unique (imports : Imports o item asset) (imports' : Imports o item asset')
    (member : asset ∈ assets.toList)
    (member' : asset' ∈ assets.toList) : asset = asset' :=
  List.inj_on_of_nodup_map assets.keys_nodup member member' (imports.name_eq imports')

/-- What an asset is bound to is a name, since the import of the asset is read from it. -/
theorem Imports.isName (imports : Imports o item asset) (isRead : m.IsRead) (member : item ∈ m.items) :
    Lexer.IsName (asset.name ++ o.assetSuffix) ∧ asset.name ++ o.assetSuffix ≠ "enum" := by
  obtain ⟨path, kind, _⟩ := imports
  obtain ⟨token, inItem, isName, free⟩ := (isRead.items item member).holds.binds _ _ kind
  have inModule : token ∈ m.tokens := List.mem_flatMap.mpr ⟨item, member, inItem⟩
  obtain ⟨_, isLexeme⟩ := isRead.reads.isLexeme inModule (by rw [isName]; rfl) (by simp [isName])
  rw [isName] at isLexeme free
  refine ⟨Lexer.isName_of_lexeme isLexeme, fun isEnum => ?_⟩
  rw [isEnum] at free
  exact absurd free (by decide)

theorem imports_of_isImported {path : String} (kind : item.kind = .importing [.byDefault binding] path)
    (relative : ['.', '/'].isPrefixOf path.toList = true) (taken : isImported o binding path asset = true) :
    binding = asset.name ++ o.assetSuffix ∧ Imports o item asset := by
  rw [isImported, Bool.and_eq_true, decide_eq_true_eq, List.any_eq_true] at taken
  obtain ⟨rfl, extension, listed, ends⟩ := taken
  exact ⟨rfl, path, kind, List.isPrefixOf_iff_prefix.mp relative, extension, listed,
    List.isSuffixOf_iff_suffix.mp ends⟩

theorem imported?_eq_some_iff : imported? o assets item = some (binding, asset) ↔
    binding = asset.name ++ o.assetSuffix ∧ asset ∈ assets.toList ∧ Imports o item asset := by
  constructor
  · intro found
    unfold imported? at found
    split at found
    · next binding' path kind =>
      split at found
      · next relative =>
        obtain ⟨asset', search, same⟩ := Option.map_eq_some_iff.mp found
        cases same
        obtain ⟨bound, imports⟩ := imports_of_isImported kind relative (List.find?_some search)
        exact ⟨bound, List.mem_of_find?_eq_some search, imports⟩
      · cases found
    · cases found
  · rintro ⟨rfl, member, imports⟩
    obtain ⟨path, kind, relative, extension, listed, ends⟩ := id imports
    have taken : isImported o (asset.name ++ o.assetSuffix) path asset = true := by
      rw [isImported, Bool.and_eq_true, decide_eq_true_eq, List.any_eq_true]
      exact ⟨rfl, extension, listed, List.isSuffixOf_iff_suffix.mpr ends⟩
    obtain ⟨first, search⟩ := Option.isSome_iff_exists.mp (List.find?_isSome.mpr ⟨asset, member, taken⟩)
    have relative := List.isPrefixOf_iff_prefix.mpr relative
    obtain ⟨_, imports'⟩ := imports_of_isImported kind relative (List.find?_some search)
    obtain rfl := imports'.unique imports (List.mem_of_find?_eq_some search) member
    rw [imported?, kind]
    simp only
    rw [if_pos relative, search, Option.map_some]

/-- An asset that an item of a source is found to import is imported by the item. -/
theorem exists_imports_of_read {found : List (Option (String × Asset))}
    (read : (Module.parse? source.toList).map (fun m => m.items.map (imported? o assets)) = some found)
    (member : some (binding, asset) ∈ found) : ∃ m item, Module.parse? source.toList = some m ∧ item ∈ m.items ∧
      asset ∈ assets.toList ∧ Imports o item asset := by
  obtain ⟨m, parsed, rfl⟩ := Option.map_eq_some_iff.mp read
  obtain ⟨item, inItems, isImported⟩ := List.mem_map.mp member
  exact ⟨m, item, parsed, inItems, (imported?_eq_some_iff.mp isImported).2⟩

/-- An item that is no statement begins before it stops, and the items behind it begin where it stops or later. -/
theorem item_bounds (isRead : m.IsRead) (split : m.items = before ++ item :: after)
    (noStatement : item.kind ≠ .statement) :
    item.start < item.stop ∧ item.stop ≤ m.text.length ∧ ∀ t ∈ tokensOf after, item.stop ≤ t.start := by
  obtain ⟨first, head, word⟩ := (isRead.items item (by simp [split])).opens.keyword noStatement
  obtain ⟨front, w, semicolons, leaves, stop, _⟩ := Module.stop_eq head (by rcases word with h | h <;> simp [h])
  have eq : m.tokens = (tokensOf before ++ front) ++ w :: (semicolons ++ tokensOf after) := by
    rw [Module.tokens_split split, leaves]
    simp
  have inModule : w ∈ m.tokens := by simp [eq]
  have within := isRead.reads.within inModule
  have inItem := (Module.head?_append_cons leaves).mp head
  have nonempty : first.start < first.stop := by
    have noChunk : first.lexeme.isChunk = false := by rcases word with h | h <;> rw [h] <;> rfl
    have member : first ∈ m.tokens := by
      rw [Module.tokens_split split]
      exact List.mem_append_right _ (List.mem_append_left _ (List.mem_of_head? head))
    have := (isRead.reads.isText member noChunk).2.pos
    omega
  have covered : first.stop ≤ w.stop := by
    rcases List.mem_append.mp (List.mem_of_head? inItem) with earlier | last
    · have := isRead.reads.stop_le eq (List.mem_append_right _ earlier)
      omega
    · rw [List.mem_singleton.mp last]
  rw [Module.start_eq head, stop]
  refine ⟨by omega, within.2, fun t behind => isRead.reads.le_start eq (List.mem_append_right _ behind)⟩

theorem stopOf_bounds (isRead : m.IsRead) (split : m.items = before ++ item :: after)
    (noStatement : item.kind ≠ .statement) :
    item.start < stopOf m.text item ∧ stopOf m.text item ≤ m.text.length := by
  obtain ⟨nonempty, within, _⟩ := item_bounds isRead split noStatement
  unfold stopOf
  split
  · next semicolon =>
    have inside := (List.getElem?_eq_some_iff.mp semicolon).choose
    omega
  · exact ⟨nonempty, within⟩

/-- No item that is no statement begins with a semicolon, so none begins with the one that follows another item. -/
theorem stopOf_le_start (isRead : m.IsRead) (split : m.items = before ++ item :: after)
    (noStatement : item.kind ≠ .statement)
    (later : other ∈ after) (noStatement' : other.kind ≠ .statement) : stopOf m.text item ≤ other.start := by
  obtain ⟨first, head, word⟩ := (isRead.items other (by simp [split, later])).opens.keyword noStatement'
  have inAfter : first ∈ tokensOf after := List.mem_flatMap.mpr ⟨other, later, List.mem_of_head? head⟩
  have behind := (item_bounds isRead split noStatement).2.2 first inAfter
  rw [Module.start_eq head]
  unfold stopOf
  split
  · next semicolon =>
    rcases Nat.lt_or_eq_of_le behind with less | same
    · exact less
    · obtain ⟨k, isKeyword⟩ : ∃ k, first.lexeme = .keyword k := by rcases word with h | h <;> exact ⟨_, h⟩
      have member : first ∈ m.tokens := by
        rw [Module.tokens_split split]
        exact List.mem_append_right _ (List.mem_append_right _ inAfter)
      have isText := (isRead.reads.isText member (by rw [isKeyword]; rfl)).2
      have spelled := isText.spelled k isKeyword
      have letter : k.spelling.toList[0]? = some ';' := by
        rw [← spelled, List.getElem?_take_of_lt isText.pos, List.getElem?_drop, Nat.add_zero, ← same]
        exact semicolon
      rw [isKeyword] at word
      rcases word with h | h <;> cases h <;> cases letter
  · exact behind

/-- Some text that is kept, and an import of an asset behind it. -/
structure Row where
  kept : List Char
  item : Item
  asset : Asset

/-- The text of some rows, with something in the place of each import, and what stands behind them. -/
def fillIn (fill : Item → Asset → List Char) (rows : List Row) (last : List Char) : List Char :=
  rows.flatMap (fun row => row.kept ++ fill row.item row.asset) ++ last

theorem fillIn_cons (fill : Item → Asset → List Char) (row : Row) (rows : List Row) (last : List Char) :
    fillIn fill (row :: rows) last = row.kept ++ fill row.item row.asset ++ fillIn fill rows last := by
  rw [fillIn, List.flatMap_cons, List.append_assoc, fillIn]

theorem fillIn_append (fill : Item → Asset → List Char) (front back : List Row) (row : Row) (last : List Char) :
    fillIn fill (front ++ row :: back) last = fillIn fill front row.kept ++ fill row.item row.asset ++
        fillIn fill back last := by
  simp only [fillIn, List.flatMap_append, List.flatMap_cons, List.append_assoc]

/-- What an import is written as, with the semicolon that may follow it directly. -/
def written (text : List Char) (item : Item) : List Char :=
  (text.drop item.start).take (item.stop - item.start) ++ if text[item.stop]? = some ';' then [';'] else []

/-- What takes the place of an import of an asset. -/
def constant (o : Options) (asset : Asset) : List Char :=
  "const ".toList ++ (asset.name ++ o.assetSuffix).toList ++ " = ".toList ++
    Text.quote asset.content.toList ++ ";".toList

/-- A module and what embedding makes of it, by rows. The imports in the rows are all imports of assets of the
module, in their order and in their places. The text of the module is what they are written as and what is kept,
and with a constant in the place of each import it is the code. Each constant is read as one that holds the
content of its asset. -/
structure Replaces (o : Options) (assets : Assets) (m : Module) (rows : List Row) (last code : List Char) : Prop where
  imports : ∀ row ∈ rows, row.asset ∈ assets.toList ∧ Imports o row.item row.asset
  all : ∀ item ∈ m.items, ∀ asset ∈ assets.toList, Imports o item asset →
    ∃ row ∈ rows, row.item = item ∧ row.asset = asset
  order : (rows.map Row.item).Sublist m.items
  placed : ∀ front row back, rows = front ++ row :: back →
    (fillIn (fun item _ => written m.text item) front row.kept).length = row.item.start
  text : m.text = fillIn (fun item _ => written m.text item) rows last
  code : code = fillIn (fun _ asset => constant o asset) rows last
  binds : ∀ row ∈ rows, Binds (constant o row.asset) (row.asset.name ++ o.assetSuffix) row.asset.content

/-- The imports of assets in a module. -/
def importsIn (o : Options) (assets : Assets) (m : Module) : List (Item × Asset) :=
  m.items.filterMap fun item => (imported? o assets item).map fun found => (item, found.2)

/-- The edit for an import of an asset. -/
def editFor (o : Options) (text : List Char) (found : Item × Asset) : Edit :=
  ⟨⟨found.1.start, stopOf text found.1⟩, constant o found.2⟩

theorem mem_importsIn_iff : (item, asset) ∈ importsIn o assets m ↔
    item ∈ m.items ∧ asset ∈ assets.toList ∧ Imports o item asset := by
  rw [importsIn, List.mem_filterMap]
  constructor
  · rintro ⟨item', member, found⟩
    obtain ⟨⟨binding, asset'⟩, isFound, same⟩ := Option.map_eq_some_iff.mp found
    cases same
    exact ⟨member, (imported?_eq_some_iff.mp isFound).2⟩
  · rintro ⟨member, inside, imports⟩
    refine ⟨item, member, ?_⟩
    rw [imported?_eq_some_iff.mpr ⟨rfl, inside, imports⟩, Option.map_some]

theorem edits_eq : edits o assets m = (importsIn o assets m).map (editFor o m.text) := by
  rw [importsIn, List.map_filterMap, edits]
  refine List.filterMap_congr fun item _ => ?_
  rw [Option.map_map]
  cases found : imported? o assets item with
  | none => rfl
  | some pair =>
    obtain ⟨binding, asset⟩ := pair
    obtain ⟨rfl, _⟩ := imported?_eq_some_iff.mp found
    rfl

theorem sublist_importsIn : ((importsIn o assets m).map Prod.fst).Sublist m.items := by
  have chosen : (fun item => ((imported? o assets item).map fun found => (item, found.2)).map Prod.fst) =
      Option.guard fun item => (imported? o assets item).isSome := by
    funext item
    cases found : imported? o assets item <;> simp [Option.guard, found]
  rw [importsIn, List.map_filterMap, chosen, List.filterMap_eq_filter]
  exact List.filter_sublist

theorem Imports.noStatement (imports : Imports o item asset) : item.kind ≠ .statement := by
  obtain ⟨path, kind, _⟩ := imports
  rw [kind]
  simp

theorem pairwise_importsIn (isRead : m.IsRead) :
    (importsIn o assets m).Pairwise fun a b => stopOf m.text a.1 ≤ b.1.start := by
  have behind : m.items.Pairwise fun item other => item.kind ≠ .statement → other.kind ≠ .statement →
      stopOf m.text item ≤ other.start :=
    Module.pairwise_of_split fun before item after split other later noStatement noStatement' =>
      stopOf_le_start isRead split noStatement later noStatement'
  rw [importsIn, List.pairwise_filterMap]
  refine behind.imp fun clear a isA b isB => ?_
  obtain ⟨foundA, isFoundA, rfl⟩ := Option.map_eq_some_iff.mp isA
  obtain ⟨foundB, isFoundB, rfl⟩ := Option.map_eq_some_iff.mp isB
  exact clear (imported?_eq_some_iff.mp isFoundA).2.2.noStatement (imported?_eq_some_iff.mp isFoundB).2.2.noStatement

/-- The edits for imports of assets stand one behind the other. -/
theorem inOrder_edits (isRead : m.IsRead) :
    Edit.InOrder m.text.length 0 (edits o assets m) ∧ Edit.sorted (edits o assets m) = edits o assets m := by
  have bounds : ∀ e ∈ edits o assets m, e.span.start < e.span.stop ∧ e.span.stop ≤ m.text.length := by
    rw [edits_eq]
    intro e edit
    obtain ⟨⟨item, asset⟩, member, rfl⟩ := List.mem_map.mp edit
    obtain ⟨inside, _, imports⟩ := mem_importsIn_iff.mp member
    obtain ⟨before, after, split⟩ := List.append_of_mem inside
    exact stopOf_bounds isRead split imports.noStatement
  have behind : (edits o assets m).Pairwise fun a b => a.span.stop ≤ b.span.start := by
    rw [edits_eq, List.pairwise_map]
    exact pairwise_importsIn isRead
  have order : (edits o assets m).Pairwise fun a b => a.span.start ≤ b.span.start :=
    behind.imp_of_mem fun member _ le => Nat.le_trans (Nat.le_of_lt (bounds _ member).1) le
  refine ⟨Edit.inOrder_of_pairwise ⟨?_, ?_, behind.imp Or.inl⟩ (fun _ _ => Nat.zero_le _) (Nat.zero_le _) order, ?_⟩
  · exact fun e member => (bounds e member).1
  · exact fun e member => (bounds e member).2
  · exact List.mergeSort_of_pairwise (order.imp decide_eq_true)

/-- An import is written from where it begins to where its edit ends. -/
theorem written_eq {text : List Char} (nonempty : item.start < stopOf text item) :
    written text item = (text.drop item.start).take (stopOf text item - item.start) := by
  unfold stopOf at nonempty ⊢
  rw [written]
  split at nonempty
  · next semicolon =>
    have next : item.stop + 1 - item.start = item.stop - item.start + 1 := by omega
    have atStop : item.start + (item.stop - item.start) = item.stop := by omega
    rw [if_pos semicolon, if_pos semicolon, next, List.take_add_one, List.getElem?_drop, atStop, semicolon]
    rfl
  · next noSemicolon => rw [if_neg noSemicolon, if_neg noSemicolon, List.append_nil]

theorem length_written {text : List Char} (nonempty : item.start < stopOf text item)
    (within : stopOf text item ≤ text.length) :
    (written text item).length = stopOf text item - item.start := by
  rw [written_eq nonempty, List.length_take, List.length_drop]
  omega

theorem drop_eq_written {text : List Char} {position : Nat} (lower : position ≤ item.start)
    (nonempty : item.start < stopOf text item) :
    text.drop position =
      (text.drop position).take (item.start - position) ++ written text item ++ text.drop (stopOf text item) := by
  have atItem : position + (item.start - position) = item.start := by omega
  have atStop : item.start + (stopOf text item - item.start) = stopOf text item := by omega
  rw [written_eq nonempty, List.append_assoc, ← congrArg text.drop atStop, ← List.drop_drop, List.take_append_drop,
    ← congrArg text.drop atItem, ← List.drop_drop, List.take_append_drop]

/-- Edits for imports of assets that stand one behind the other divide a text into rows. -/
theorem exists_rows {text : List Char} {position : Nat} {found : List (Item × Asset)}
    (order : Edit.InOrder text.length position (found.map (editFor o text))) :
    ∃ rows last, rows.map (fun row => (row.item, row.asset)) = found ∧
      text.drop position = fillIn (fun item _ => written text item) rows last ∧
      Edit.applyFrom position (found.map (editFor o text)) (text.drop position) =
        fillIn (fun _ asset => constant o asset) rows last ∧
      ∀ front row back, rows = front ++ row :: back →
        position + (fillIn (fun item _ => written text item) front row.kept).length = row.item.start := by
  induction found generalizing position with
  | nil => exact ⟨[], text.drop position, rfl, rfl, rfl, fun front row back none => by simp at none⟩
  | cons first found ih =>
    obtain ⟨item, asset⟩ := first
    obtain ⟨lower, nonempty, later⟩ := id order
    have bound := later.le_length
    simp only [editFor] at lower nonempty later bound
    obtain ⟨rows, last, same, kept, code, placed⟩ := ih later
    have lengthKept : ((text.drop position).take (item.start - position)).length = item.start - position := by
      rw [List.length_take, List.length_drop]
      omega
    refine ⟨⟨(text.drop position).take (item.start - position), item, asset⟩ :: rows, last, ?_, ?_, ?_,
      fun front row back eq => ?_⟩
    · rw [List.map_cons, same]
    · rw [fillIn_cons, ← kept]
      exact drop_eq_written lower nonempty
    · have behind : position + (stopOf text item - position) = stopOf text item := by omega
      rw [List.map_cons, Edit.applyFrom_cons order, fillIn_cons, ← code, List.drop_drop]
      simp only [editFor, behind]
    · cases front with
      | nil =>
        cases eq
        rw [fillIn, List.flatMap_nil, List.nil_append]
        simp only [lengthKept]
        omega
      | cons head front =>
        obtain ⟨rfl, eq'⟩ := List.cons.inj eq
        have behind := placed front row back eq'
        rw [fillIn_cons, List.length_append, List.length_append, lengthKept, length_written nonempty bound]
        omega

theorem importsIn_eq_nil_iff : importsIn o assets m = [] ↔
    ∀ item ∈ m.items, ∀ asset ∈ assets.toList, ¬Imports o item asset := by
  rw [List.eq_nil_iff_forall_not_mem]
  constructor
  · exact fun none item member asset inside imports =>
      none (item, asset) (mem_importsIn_iff.mpr ⟨member, inside, imports⟩)
  · rintro none ⟨item, asset⟩ found
    obtain ⟨member, inside, imports⟩ := mem_importsIn_iff.mp found
    exact none item member asset inside imports

/-- Only the assets that a module imports matter, in whatever order. -/
theorem importsIn_congr
    (same : ∀ item ∈ m.items, ∀ asset, Imports o item asset → (asset ∈ others.toList ↔ asset ∈ assets.toList)) :
    importsIn o others m = importsIn o assets m := by
  refine List.filterMap_congr fun item member => congrArg _ (Option.ext fun (binding, asset) => ?_)
  rw [imported?_eq_some_iff, imported?_eq_some_iff]
  constructor
  · exact fun ⟨bound, inside, imports⟩ => ⟨bound, (same item member asset imports).mp inside, imports⟩
  · exact fun ⟨bound, inside, imports⟩ => ⟨bound, (same item member asset imports).mpr inside, imports⟩

theorem result_embed (parsed : Module.parse? source.toList = some m) : (embed o assets name source).result =
    .ok (if importsIn o assets m = [] then none
        else some (String.ofList (Edit.applyAll (edits o assets m) m.text))) := by
  have isModule : parseModule name source = pure m := by rw [parseModule, parsed]
  have isEmpty : (edits o assets m).isEmpty = true ↔ importsIn o assets m = [] := by
    rw [List.isEmpty_iff, edits_eq, List.map_eq_nil_iff]
  unfold embed
  split
  · next noAssets =>
    rw [if_pos]
    · rfl
    · rw [importsIn_eq_nil_iff]
      intro item member asset inside
      rw [List.isEmpty_iff.mp noAssets] at inside
      cases inside
  · rw [isModule]
    change Except.ok (if (edits o assets m).isEmpty then none else some _) = _
    simp only [isEmpty]

theorem replaces_embed (parsed : Module.parse? source.toList = some m) (name : String)
    (taken : ∃ item ∈ m.items, ∃ asset ∈ assets.toList, Imports o item asset) :
    ∃ rows last code, (embed o assets name source).result = .ok (some (String.ofList code)) ∧
      Replaces o assets m rows last code := by
  have isRead := Module.isRead_of_parse parsed
  obtain ⟨order, sorted⟩ : Edit.InOrder m.text.length 0 (edits o assets m) ∧
      Edit.sorted (edits o assets m) = edits o assets m :=
    inOrder_edits isRead
  have some_ : importsIn o assets m ≠ [] := by
    rw [ne_eq, importsIn_eq_nil_iff]
    push Not
    exact taken
  rw [edits_eq] at order
  obtain ⟨rows, last, same, text, code, placed⟩ := exists_rows order
  have inRows (item : Item) (asset : Asset) :
      (item, asset) ∈ importsIn o assets m ↔ ∃ row ∈ rows, row.item = item ∧ row.asset = asset := by
    rw [← same, List.mem_map]
    simp
  have inModule (row : Row) (member : row ∈ rows) :=
    mem_importsIn_iff.mp ((inRows row.item row.asset).mpr ⟨row, member, rfl, rfl⟩)
  refine ⟨rows, last, _,
    by rw [result_embed parsed, if_neg some_], ⟨fun row member => (inModule row member).2, ?_, ?_, ?_, text, ?_, ?_⟩⟩
  · exact fun item member asset inside imports => (inRows item asset).mp
      (mem_importsIn_iff.mpr ⟨member, inside, imports⟩)
  · have items : rows.map Row.item = (importsIn o assets m).map Prod.fst := by rw [← same, List.map_map]; rfl
    exact items ▸ sublist_importsIn
  · intro front row back eq
    rw [← placed front row back eq, Nat.zero_add]
  · rw [Edit.applyAll, sorted, edits_eq]
    exact code
  · intro row member
    obtain ⟨inItems, _, imports⟩ := inModule row member
    obtain ⟨isName, other⟩ := imports.isName isRead inItems
    exact binds_declaration isName other

/-- Of a source that can be parsed, embedding makes nothing exactly if no import takes an asset. Otherwise it makes of
the source, without a byte order mark at its beginning, the code with a constant in the place of each import of an
asset. What it makes depends on no order of the assets and on no asset that the module does not import. -/
theorem embed_replaces_imports (o : Options) (assets : Assets) (name source : String) (m : Module)
    (parsed : Module.parse? source.toList = some m) :
    m.text = Module.withoutByteOrderMark source.toList ∧
      ((embed o assets name source).result = .ok none ↔
        ∀ item ∈ m.items, ∀ asset ∈ assets.toList, ¬Imports o item asset) ∧
      ((∃ item ∈ m.items, ∃ asset ∈ assets.toList, Imports o item asset) →
        ∃ rows last code, (embed o assets name source).result = .ok (some (String.ofList code)) ∧
          Replaces o assets m rows last code) ∧
      ∀ others : Assets,
        (∀ item ∈ m.items, ∀ asset, Imports o item asset → (asset ∈ others.toList ↔ asset ∈ assets.toList)) →
          (embed o others name source).result = (embed o assets name source).result := by
  refine ⟨Module.text_of_parse parsed, ?_, replaces_embed parsed name, fun others same => ?_⟩
  · rw [result_embed parsed, ← importsIn_eq_nil_iff]
    split
    · next none => exact iff_of_true rfl none
    · next some_ => exact iff_of_false (by simp) some_
  · rw [result_embed parsed, result_embed parsed, edits_eq, edits_eq, importsIn_congr same]

/-- One import takes an asset, with a second semicolon behind it, and one takes a module. -/
theorem embed_replaces_one_of_two :
    ∃ m, Module.parse? "import aAsset from './a.wgsl';;\nimport b from './b';".toList = some m ∧
    ∃ rows last code,
      (embed {} ⟨[⟨"a", "x"⟩], by simp⟩ "m.js" "import aAsset from './a.wgsl';;\nimport b from './b';").result =
        .ok (some (String.ofList code)) ∧
      Replaces {} ⟨[⟨"a", "x"⟩], by simp⟩ m rows last code := by
  have read : (Module.parse? "import aAsset from './a.wgsl';;\nimport b from './b';".toList).map (fun m =>
      m.items.map (imported? {} ⟨[⟨"a", "x"⟩], by simp⟩)) = some [some ("aAsset", ⟨"a", "x"⟩), none, none] := by
    decide +kernel
  obtain ⟨m, item, parsed, member, inside, imports⟩ := exists_imports_of_read read List.mem_cons_self
  exact ⟨m, parsed, (embed_replaces_imports _ _ "m.js" _ m parsed).2.2.1 ⟨item, member, _, inside, imports⟩⟩

/-- A byte order mark at the beginning of the source is not kept, so nothing that stands around the import in the
source stands around the constant. -/
theorem embed_drops_byteOrderMark : ∃ code,
    (embed {} ⟨[⟨"a", "x"⟩], by simp⟩ "m.js" "\uFEFFimport aAsset from './a.wgsl';").result =
      .ok (some (String.ofList code)) ∧
      ∀ rows last, "\uFEFFimport aAsset from './a.wgsl';".toList =
        fillIn (fun _ _ => "import aAsset from './a.wgsl';".toList) rows last →
          code ≠ fillIn (fun _ asset => constant {} asset) rows last := by
  have read : (Module.parse? "\uFEFFimport aAsset from './a.wgsl';".toList).map (fun m =>
      ((importsIn {} ⟨[⟨"a", "x"⟩], by simp⟩ m).length, Edit.applyAll (edits {} ⟨[⟨"a", "x"⟩], by simp⟩ m) m.text)) =
        some (1, "const aAsset = \"x\";".toList) := by
    decide +kernel
  obtain ⟨m, parsed, eq⟩ := Option.map_eq_some_iff.mp read
  obtain ⟨one, code⟩ := Prod.mk.inj eq
  have some_ : importsIn {} ⟨[⟨"a", "x"⟩], by simp⟩ m ≠ [] := by
    intro none
    rw [none] at one
    cases one
  refine ⟨_, by rw [result_embed parsed, if_neg some_, code], fun rows last source filled => ?_⟩
  -- The mark stands in what is kept, and what is kept stands in the code.
  have kept : '\uFEFF' ∈ last ∨ ∃ row ∈ rows, '\uFEFF' ∈ row.kept := by
    have mark : '\uFEFF' ∈ fillIn (fun _ _ => "import aAsset from './a.wgsl';".toList) rows last := source ▸ by decide
    rw [fillIn, List.mem_append, List.mem_flatMap] at mark
    rcases mark with ⟨row, member, here⟩ | behind
    · rcases List.mem_append.mp here with before | inImport
      · exact Or.inr ⟨row, member, before⟩
      · exact absurd inImport (by decide)
    · exact Or.inl behind
  have inCode : '\uFEFF' ∈ "const aAsset = \"x\";".toList := by
    rw [filled, fillIn, List.mem_append, List.mem_flatMap]
    exact kept.symm.imp (fun ⟨row, member, here⟩ => ⟨row, member, List.mem_append_left _ here⟩) id
  exact absurd inCode (by decide)

/-- A quoted text is read as the text, whatever follows it. What embedding makes of a module has a constant in the
place of each import of an asset, and the constant is read as one that binds the name of the import to the content
of the asset. -/
theorem embedded_binds_content :
    (∀ content rest, Lexer.readString (Text.quote content ++ rest) = some (content, (Text.quote content).length)) ∧
      ∀ (o : Options) (assets : Assets) (name source : String) (m : Module) (item : Item) (asset : Asset),
        Module.parse? source.toList = some m → item ∈ m.items → asset ∈ assets.toList → Imports o item asset →
          ∃ front row back last before behind, row.item = item ∧ row.asset = asset ∧
            (embed o assets name source).result = .ok (some (String.ofList (before ++ constant o asset ++ behind))) ∧
            Replaces o assets m (front ++ row :: back) last (before ++ constant o asset ++ behind) ∧
            before = fillIn (fun _ asset => constant o asset) front row.kept ∧
            Binds (constant o asset) (asset.name ++ o.assetSuffix) asset.content := by
  refine ⟨Lexer.readString_quote, fun o assets name source m item asset parsed member inside imports => ?_⟩
  obtain ⟨rows, last, code, result, replaces⟩ := replaces_embed parsed name ⟨item, member, asset, inside, imports⟩
  obtain ⟨row, inRows, rfl, rfl⟩ := replaces.all item member asset inside imports
  obtain ⟨front, back, rfl⟩ := List.append_of_mem inRows
  have whole := replaces.code.trans (fillIn_append _ front back row last)
  exact ⟨front, row, back, last, _, _, rfl, rfl, whole ▸ result, whole ▸ replaces, rfl, replaces.binds row inRows⟩

/-- An asset that holds characters of each kind that a quoted text escapes. -/
def escapedAsset : Asset := ⟨"a", "\"\\\n\t\x01"⟩

theorem embedded_binds_escaped : ∃ m item, Module.parse? "a;\nimport aAsset from './a.wgsl';".toList = some m ∧
    item ∈ m.items ∧ Imports {} item escapedAsset ∧ ∃ before behind,
      (embed {} ⟨[escapedAsset], by simp⟩ "m.js" "a;\nimport aAsset from './a.wgsl';").result =
        .ok (some (String.ofList (before ++ "const aAsset = \"\\\"\\\\\\n\\t\\u0001\";".toList ++ behind))) ∧
      Binds "const aAsset = \"\\\"\\\\\\n\\t\\u0001\";".toList "aAsset" escapedAsset.content := by
  have read : (Module.parse? "a;\nimport aAsset from './a.wgsl';".toList).map (fun m =>
      m.items.map (imported? {} ⟨[escapedAsset], by simp⟩)) = some [none, some ("aAsset", escapedAsset)] := by
    decide +kernel
  obtain ⟨m, item, parsed, member, inside, imports⟩ :=
    exists_imports_of_read read (List.mem_cons_of_mem _ List.mem_cons_self)
  have spelled : constant {} escapedAsset = "const aAsset = \"\\\"\\\\\\n\\t\\u0001\";".toList := by decide
  obtain ⟨_, _, _, _, before, behind, _, _, result, _, _, binds⟩ :=
    embedded_binds_content.2 {} ⟨[escapedAsset], by simp⟩ "m.js" _ m item _ parsed member inside imports
  exact ⟨m, item, parsed, member, imports, before, behind, spelled ▸ result, spelled ▸ binds⟩

end Assets

end ModuleBundler
