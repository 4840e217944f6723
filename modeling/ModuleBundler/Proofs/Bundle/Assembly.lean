import ModuleBundler.Bundle
import ModuleBundler.Proofs.Graph.Order
import ModuleBundler.Proofs.KeyedList
import ModuleBundler.Proofs.ModuleSource

namespace ModuleBundler

/-- The fragment of a module, if it can be parsed and leaves a text. -/
def fragment? (path source : String) : Option Fragment :=
    ((plain? source).filter fun text => !text.isEmpty).map fun text => ⟨path, text⟩

theorem fragment?_eq_some_iff {path source : String} {fragment : Fragment} :
    fragment? path source = some fragment ↔ fragment.path = path ∧ plain? source = some fragment.text ∧
        fragment.text ≠ "" := by
  obtain ⟨path', text⟩ := fragment
  simp only [fragment?, Option.map_eq_some_iff, Option.filter_eq_some_iff, Bool.not_eq_true',
    ← Bool.not_eq_true, String.isEmpty_iff, Fragment.mk.injEq]
  constructor
  · rintro ⟨text, ⟨isText, some⟩, rfl, rfl⟩
    exact ⟨rfl, isText, some⟩
  · rintro ⟨rfl, isText, some⟩
    exact ⟨text, ⟨isText, some⟩, rfl, rfl⟩

/-- A call that goes on with a bundle. -/
inductive Call
  | addModule (path source : String)
  | setEntry (path source : String)

namespace Call

def path : Call → String
  | addModule path _ | setEntry path _ => path

def source : Call → String
  | addModule _ source | setEntry _ source => source

/-- Whether a call adds a module. -/
def isModule : Call → Bool
  | addModule .. => true
  | setEntry .. => false

/-- The fragment that a call adds. -/
def added? : Call → Option Fragment
  | addModule path source => fragment? path source
  | setEntry .. => none

/-- The text that a call makes the entry. -/
def entry? : Call → Option String
  | addModule .. => none
  | setEntry _ source => plain? source

/-- What a bundle becomes by a call with a source that can be parsed. -/
def extend (bundle : Bundle) (call : Call) : Bundle where
  fragments := bundle.fragments ++ call.added?.toList
  entry := call.entry?.or bundle.entry

end Call

namespace Bundle

/-- Goes on with a bundle by a call. -/
def apply (bundle : Bundle) : Call → Attempt Bundle
  | .addModule path source => bundle.addModule path source
  | .setEntry path source => bundle.setEntry path source

/-- Goes on with a bundle by some calls, one after the other. -/
def applyAll (bundle : Bundle) : List Call → Attempt Bundle
  | [] => pure bundle
  | call :: calls => do (← bundle.apply call).applyAll calls

variable {bundle made : Bundle} {call : Call} {calls : List Call} {failure : Failure}

theorem addModules_eq (bundle : Bundle) (nodes : List ModuleNode) :
    bundle.addModules nodes = bundle.applyAll (nodes.map fun node => .addModule node.key node.content) := by
  induction nodes generalizing bundle with
  | nil => rfl
  | cons node nodes ih =>
    rw [addModules, List.map_cons, applyAll]
    simp only [ih]
    rfl

/-- A call fails if its source cannot be parsed, and only then. -/
theorem result_apply (bundle : Bundle) (call : Call) : (bundle.apply call).result =
    if Parses call.source then .ok (call.extend bundle) else .error (.unparsable call.path) := by
  cases call with
  | addModule path source =>
    rw [apply, addModule, Attempt.result_bind, result_plainText, Call.source, Call.path,
      ← if_congr plain?_isSome_iff rfl rfl]
    cases plain : plain? source with
    | none => rfl
    | some text =>
      have fragment : fragment? path source = if text.isEmpty then none else some ⟨path, text⟩ := by
        rw [fragment?, plain, Option.filter_some]
        cases text.isEmpty <;> rfl
      simp only [Call.extend, Call.added?, Call.entry?, fragment, Except.bind]
      cases text.isEmpty with
      | true =>
        rw [if_pos rfl, if_pos rfl, Option.toList_none, List.append_nil, Option.none_or]
        rfl
      | false => rfl
  | setEntry path source =>
    rw [apply, setEntry, Attempt.result_bind, result_plainText, Call.source, Call.path,
      ← if_congr plain?_isSome_iff rfl rfl]
    cases plain : plain? source with
    | none => rfl
    | some text =>
      simp only [Call.extend, Call.added?, Call.entry?, plain, Option.toList_none, List.append_nil, Option.some_or]
      rfl

theorem result_applyAll_ok_iff : (bundle.applyAll calls).result = .ok made ↔
    (∀ call ∈ calls, Parses call.source) ∧ made = calls.foldl Call.extend bundle := by
  induction calls generalizing bundle with
  | nil =>
    rw [applyAll, List.foldl_nil]
    exact ⟨fun same => ⟨nofun, (Except.ok.inj same).symm⟩, fun ⟨_, same⟩ => congrArg _ same.symm⟩
  | cons call calls ih =>
    rw [applyAll, Attempt.bind_eq_ok_iff, result_apply, List.forall_mem_cons, List.foldl_cons]
    by_cases parses : Parses call.source
    · simp [parses, ih]
    · simp [parses]

/-- Calls fail at the first source that cannot be parsed. -/
theorem result_applyAll_error_iff : (bundle.applyAll calls).result = .error failure ↔
    ∃ front call back, calls = front ++ call :: back ∧ (∀ other ∈ front, Parses other.source) ∧ ¬Parses call.source ∧
      failure = .unparsable call.path := by
  induction calls generalizing bundle with
  | nil =>
    rw [applyAll]
    constructor
    · nofun
    · rintro ⟨front, call, back, eq, _⟩
      simp at eq
  | cons call calls ih =>
    rw [applyAll, Attempt.result_bind, result_apply]
    by_cases parses : Parses call.source
    · rw [if_pos parses]
      refine ih.trans ?_
      constructor
      · rintro ⟨front, first, back, rfl, others, fails⟩
        exact ⟨call :: front, first, back, rfl, List.forall_mem_cons.mpr ⟨parses, others⟩, fails⟩
      · rintro ⟨front, first, back, eq, others, fails⟩
        cases front with
        | nil =>
          obtain ⟨rfl, _⟩ := List.cons.inj eq
          exact absurd parses fails.1
        | cons _ front =>
          obtain ⟨rfl, rfl⟩ := List.cons.inj eq
          exact ⟨front, first, back, rfl, (List.forall_mem_cons.mp others).2, fails⟩
    · rw [if_neg parses]
      constructor
      · intro failed
        exact ⟨[], call, calls, rfl, nofun, parses, (Except.error.inj failed).symm⟩
      · rintro ⟨front, first, back, eq, others, _, rfl⟩
        cases front with
        | nil =>
          obtain ⟨rfl, _⟩ := List.cons.inj eq
          rfl
        | cons _ front =>
          obtain ⟨rfl, _⟩ := List.cons.inj eq
          exact absurd (others call List.mem_cons_self) parses

theorem parses_calls_iff {nodes : List ModuleNode} :
    (∀ call ∈ nodes.map fun node => Call.addModule node.key node.content, Parses call.source) ↔
        ∀ node ∈ nodes, Parses node.content :=
  List.forall_mem_map

theorem result_addModules_error_iff {nodes : List ModuleNode} : (bundle.addModules nodes).result = .error failure ↔
    ∃ front node back, nodes = front ++ node :: back ∧ (∀ other ∈ front, Parses other.content) ∧
      ¬Parses node.content ∧
      failure = .unparsable node.key := by
  rw [addModules_eq, result_applyAll_error_iff]
  constructor
  · rintro ⟨front, call, back, same, others, fails, rfl⟩
    obtain ⟨front, _, split, rfl, rest⟩ := List.map_eq_append_iff.mp same
    obtain ⟨node, back, rfl, rfl, rfl⟩ := List.map_eq_cons_iff.mp rest
    exact ⟨front, node, back, split, parses_calls_iff.mp others, fails, rfl⟩
  · rintro ⟨front, node, back, rfl, others, fails, rfl⟩
    exact ⟨_, .addModule node.key node.content, _, List.map_append, parses_calls_iff.mpr others, fails, rfl⟩

/-- Calls add the fragments of their modules, one behind the other, and the last entry module
replaces those before it. -/
theorem foldl_extend (bundle : Bundle) (calls : List Call) : calls.foldl Call.extend bundle =
    { fragments := bundle.fragments ++ calls.filterMap Call.added?,
      entry := (calls.filterMap Call.entry?).getLast?.or bundle.entry } := by
  induction calls generalizing bundle with
  | nil => simp
  | cons call calls ih =>
    have fragments : call.added?.toList ++ calls.filterMap Call.added? = (call :: calls).filterMap Call.added? := by
      rw [List.filterMap_cons]
      cases call.added? <;> rfl
    have entry : (calls.filterMap Call.entry?).getLast?.or call.entry? =
        ((call :: calls).filterMap Call.entry?).getLast? := by
      rw [List.filterMap_cons]
      cases call.entry? with
      | none => exact Option.or_none
      | some text =>
        simp only [List.getLast?_cons]
        cases (calls.filterMap Call.entry?).getLast? <;> rfl
    rw [List.foldl_cons, ih, Call.extend, List.append_assoc, fragments, ← Option.or_assoc, entry]

theorem filterMap_entry?_of_modules (modules : ∀ call ∈ calls, call.isModule) : calls.filterMap Call.entry? = [] := by
  refine List.filterMap_eq_nil_iff.mpr fun call member => ?_
  cases call with
  | addModule => rfl
  | setEntry => cases modules _ member

theorem result_addModules_ok_iff {nodes : List ModuleNode} : (bundle.addModules nodes).result = .ok made ↔
    (∀ node ∈ nodes, Parses node.content) ∧
      made =
        { bundle with fragments := bundle.fragments ++ nodes.filterMap fun node => fragment? node.key node.content } := by
  have added : (nodes.map fun node => Call.addModule node.key node.content).filterMap Call.added? =
      nodes.filterMap fun node => fragment? node.key node.content := List.filterMap_map
  have noEntry : (nodes.map fun node => Call.addModule node.key node.content).filterMap Call.entry? = [] :=
    filterMap_entry?_of_modules (List.forall_mem_map.mpr fun _ _ => rfl)
  rw [addModules_eq, result_applyAll_ok_iff, parses_calls_iff, foldl_extend, added, noEntry]
  rfl

/-- The text of a bundle ends with that of its entry module. -/
theorem text_of_entry {text : String} (entry : bundle.entry = some text) :
    bundle.text = String.join (bundle.fragments.map Fragment.block) ++ (entryMark ++ "\n") ++ text := by
  rw [Bundle.text, entry, String.append_assoc]

theorem added?_filter (calls : List Call) : (calls.filter Call.isModule).filterMap Call.added? =
    calls.filterMap Call.added? := by
  rw [List.filterMap_filter]
  refine List.filterMap_congr fun call _ => ?_
  cases call <;> rfl

/-- The entry that calls leave behind is that of the last one that sets it. -/
theorem getLast?_entry {front back : List Call} {path source text : String} (isText : plain? source = some text)
    (modules : ∀ call ∈ back, call.isModule) :
    ((front ++ .setEntry path source :: back).filterMap Call.entry?).getLast? = some text := by
  have some : Call.entry? (.setEntry path source) = some text := isText
  rw [List.filterMap_append, List.filterMap_cons_some some, filterMap_entry?_of_modules modules, List.getLast?_concat]

/-- The last call that sets an entry leaves no trace of those before it. -/
theorem result_applyAll_last {front back : List Call} {path source : String}
    (ends : (bundle.applyAll (front ++ .setEntry path source :: back)).result = .ok made)
    (modules : ∀ call ∈ back, call.isModule) :
    ∃ text, (plainText path source).result = .ok text ∧ made.entry = some text ∧
      (∃ blocks, made.text = blocks ++ text) ∧
      (bundle.applyAll (front.filter Call.isModule ++ .setEntry path source :: back)).result = .ok made := by
  obtain ⟨parse, rfl⟩ := result_applyAll_ok_iff.mp ends
  have parses : Parses source := parse (.setEntry path source) (List.mem_append_right _ List.mem_cons_self)
  obtain ⟨text, isText⟩ := Option.isSome_iff_exists.mp (plain?_isSome_iff.mpr parses)
  have entry (others : List Call) : ((others ++ .setEntry path source :: back).foldl Call.extend bundle).entry =
      some text := by
    rw [foldl_extend, getLast?_entry isText modules, Option.some_or]
  refine ⟨text, ?_, entry front, ⟨_, text_of_entry (entry front)⟩,
    result_applyAll_ok_iff.mpr ⟨fun call member => parse call ?_, ?_⟩⟩
  · exact result_plainText_ok_iff.mpr isText
  · rw [List.mem_append] at member ⊢
    exact member.imp_left List.mem_of_mem_filter
  · rw [foldl_extend, foldl_extend, getLast?_entry isText modules, getLast?_entry isText modules,
      List.filterMap_append, List.filterMap_append, added?_filter]

end Bundle

namespace Graph

open ModuleBundler.Bundle

variable {g : Graph} {node : ModuleNode} {fragment : Fragment}

/-- The fragments of the modules of a graph, in their order. -/
def fragments (g : Graph) : List Fragment := g.ordered.value.filterMap fun node => fragment? node.key node.content

theorem mem_ordered_iff : node ∈ g.ordered.value ↔ node ∈ g.nodes.toList := by
  constructor
  · intro member
    obtain ⟨key, _, found⟩ := List.mem_filterMap.mp member
    exact (KeyedList.get?_eq_some_iff.mp found).1
  · intro member
    refine List.mem_filterMap.mpr ⟨node.key, mem_order_iff.mpr (List.mem_map_of_mem member), ?_⟩
    exact KeyedList.get?_eq_some_iff.mpr ⟨member, rfl⟩

theorem order_nodup (g : Graph) : g.order.Nodup := g.order_perm_keys.nodup_iff.mpr g.nodes.keys_nodup

theorem ordered_perm_nodes (g : Graph) : g.ordered.value.Perm g.nodes.toList := by
  refine (List.perm_ext_iff_of_nodup ?_ g.nodes.keys_nodup.of_map).mpr fun node => mem_ordered_iff
  exact (g.map_key_ordered ▸ g.order_nodup : (g.ordered.value.map ModuleNode.key).Nodup).of_map

theorem mem_fragments_iff : fragment ∈ g.fragments ↔
    ∃ node ∈ g.nodes.toList, fragment.path = node.key ∧ plain? node.content = some fragment.text ∧
        fragment.text ≠ "" := by
  simp only [fragments, List.mem_filterMap, mem_ordered_iff, fragment?_eq_some_iff]

/-- The fragments stand in the order of their modules. -/
theorem map_path_fragments (g : Graph) : (g.fragments.map Fragment.path).Sublist g.order := by
  have stands (nodes : List ModuleNode) :
      ((nodes.filterMap fun node => fragment? node.key node.content).map Fragment.path).Sublist
      (nodes.map ModuleNode.key) := by
    induction nodes with
    | nil => exact .slnil
    | cons node nodes ih =>
      rw [List.filterMap_cons, List.map_cons]
      cases added : fragment? node.key node.content with
      | none => exact ih.cons _
      | some fragment =>
        rw [List.map_cons, (fragment?_eq_some_iff.mp added).1]
        exact ih.cons_cons _
  exact g.map_key_ordered ▸ stands g.ordered.value

theorem result_addModules_ordered_ok_iff {made : Bundle} : (addModules {} g.ordered.value).result = .ok made ↔
    (∀ node ∈ g.nodes.toList, Parses node.content) ∧ made = { fragments := g.fragments } := by
  rw [result_addModules_ok_iff]
  simp only [mem_ordered_iff]
  rfl

/-- The modules of a graph give a bundle with a fragment for each module that leaves a text, in their order and
each once, unless one of them cannot be parsed: then the first such module is the failure. Calls that go on with
the bundle keep these fragments in front. -/
theorem assembled_in_order (g : Graph) :
    (∀ failure, (addModules {} g.ordered.value).result = .error failure ↔
      ∃ front node back, g.ordered.value = front ++ node :: back ∧
      (∀ other ∈ front, Parses other.content) ∧ ¬Parses node.content ∧ failure = .unparsable node.key) ∧
    (∀ made, (addModules {} g.ordered.value).result = .ok made ↔
      (∀ node ∈ g.nodes.toList, Parses node.content) ∧ made = { fragments := g.fragments }) ∧
    (g.ordered.value.Perm g.nodes.toList ∧ g.ordered.value.map ModuleNode.key = g.order ∧
      (g.fragments.map Fragment.path).Sublist g.order ∧ (g.fragments.map Fragment.path).Nodup ∧
      ∀ fragment, fragment ∈ g.fragments ↔ ∃ node ∈ g.nodes.toList, fragment.path = node.key ∧
        (plainText node.key node.content).result = .ok fragment.text ∧ fragment.text ≠ "") ∧
    ∀ made calls last, (addModules {} g.ordered.value).result = .ok made → (made.applyAll calls).result = .ok last →
      last.fragments = g.fragments ++ calls.filterMap Call.added? ∧
        ((∀ call ∈ calls, call.isModule) → last.entry = none) ∧
      ∀ front path source back, calls = front ++ .setEntry path source :: back → (∀ call ∈ back, call.isModule) →
        ∃ text, (plainText path source).result = .ok text ∧ last.entry = some text ∧
          (∃ blocks, last.text = blocks ++ text) ∧
          (made.applyAll (front.filter Call.isModule ++ .setEntry path source :: back)).result = .ok last := by
  refine ⟨fun failure => result_addModules_error_iff, fun made => result_addModules_ordered_ok_iff,
    ⟨g.ordered_perm_nodes, g.map_key_ordered, g.map_path_fragments, g.map_path_fragments.nodup g.order_nodup,
      fun fragment => ?_⟩,
    fun made calls last modules ends => ⟨?_, fun onlyModules => ?_, fun front path source back eq behind => ?_⟩⟩
  · simp only [mem_fragments_iff, result_plainText_ok_iff]
  · obtain ⟨_, rfl⟩ := result_addModules_ordered_ok_iff.mp modules
    rw [(result_applyAll_ok_iff.mp ends).2, foldl_extend]
  · obtain ⟨_, rfl⟩ := result_addModules_ordered_ok_iff.mp modules
    rw [(result_applyAll_ok_iff.mp ends).2, foldl_extend, filterMap_entry?_of_modules onlyModules]
    rfl
  · exact result_applyAll_last (eq ▸ ends) behind

/-- The node of a module that imports nothing. -/
def leafNode : ModuleNode := ⟨.ofRelativePath "a.js" "a.js" "a.js", [], "a();"⟩

/-- A graph with one module, gone on with by an entry module, a module and another entry module. -/
theorem assembled_leaf : ∃ made last : Bundle,
    (addModules {} (empty.insert leafNode).ordered.value).result = .ok made ∧
    (made.applyAll [.setEntry "m.js" "m();", .addModule "b.js" "b();", .setEntry "n.js" "n();"]).result = .ok last ∧
    last.fragments = [⟨"a.js", "a();"⟩, ⟨"b.js", "b();"⟩] ∧ last.entry = some "n();" ∧
    (made.applyAll [.addModule "b.js" "b();", .setEntry "n.js" "n();"]).result = .ok last := by
  obtain ⟨_, made_iff, _, onwards⟩ := assembled_in_order (empty.insert leafNode)
  have order : (empty.insert leafNode).order = ["a.js"] := List.perm_singleton.mp (order_perm_keys _)
  have ordered : (empty.insert leafNode).ordered.value = [leafNode] := by
    show (empty.insert leafNode).order.filterMap _ = _
    rw [order]
    rfl
  have fragments : (empty.insert leafNode).fragments = [⟨"a.js", "a();"⟩] := by
    rw [Graph.fragments, ordered]
    decide +kernel
  have made := (made_iff ⟨[⟨"a.js", "a();"⟩], none⟩).mpr ⟨by decide +kernel, by rw [fragments]⟩
  have ends : (applyAll ⟨[⟨"a.js", "a();"⟩], none⟩
      [.setEntry "m.js" "m();", .addModule "b.js" "b();", .setEntry "n.js" "n();"]).result =
      .ok ⟨[⟨"a.js", "a();"⟩, ⟨"b.js", "b();"⟩], some "n();"⟩ := Attempt.result_eq_ok (by decide +kernel)
  obtain ⟨_, _, last⟩ := onwards _ _ _ made ends
  obtain ⟨_, _, _, _, same⟩ := last [.setEntry "m.js" "m();", .addModule "b.js" "b();"] "n.js" "n();" [] rfl nofun
  exact ⟨_, _, made, ends, rfl, rfl, same⟩

end Graph

end ModuleBundler
