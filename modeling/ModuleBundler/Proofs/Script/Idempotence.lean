import Mathlib.Data.List.DropRight
import ModuleBundler.Proofs.ModuleSource
import ModuleBundler.Proofs.Script.Compaction
import ModuleBundler.Proofs.Script.Removal

/-!
Scripts that are made once more.

Making a script of a module never makes its text longer, and each step that changes the text makes it shorter:
what an edit puts in is shorter than what it takes, and a line, white space or a byte order mark is only ever
dropped. So a script stays as it is exactly if it gives rise to no edit, has no line to drop, and begins with no
byte order mark.
-/

namespace ModuleBundler.Script

open Text (Edit Span)

/-- Whether no edit is made for an item. -/
structure Item.IsLeft (text : List Char) (item : Item) : Prop where
  wiring : match item.kind with
    | .statement | .exportedConstants | .aliasing => True
    | .exportedDefault => ¬item.HasBlankKeywords text
    | .exportedDeclaration | .exportList | .importing .. | .reexporting _ | .reexportingAs _ => False
  forwarding : ∀ call ∈ item.tree.nodesOf .superCall, Module.isForwarding call = false

namespace Module

/-- Whether a module is a script that nothing is taken out of. -/
structure IsSettled (m : Module) : Prop where
  items : ∀ item ∈ m.items, item.IsLeft m.text
  lines : ∀ start < m.text.length, InLine m.text start start →
    ((∀ c ∈ lineFrom m.text start, Text.isBlank c = true) ∨ IsCommentLine (lineFrom m.text start)) →
      ∃ span ∈ m.literals, span.start < start ∧ start < span.stop

variable {m : Module} {item : Item} {e : Edit} {source : List Char}

theorem replacement_eq_nil (edit : e ∈ wiringEdits m.text item) : e.replacement = [] := by
  unfold wiringEdits keywordEdit at edit
  cases kind : item.kind with
  | importing | reexporting | reexportingAs | exportList =>
    simp only [kind, List.mem_singleton] at edit
    rw [edit, Edit.remove]
  | exportedDeclaration | exportedDefault =>
    simp only [kind] at edit
    split at edit
    · rw [List.mem_singleton.mp edit, Edit.remove]
    · cases edit
  | statement | exportedConstants | aliasing =>
    simp only [kind] at edit
    cases edit

/-- Behind a token, each further one takes a character at least. -/
theorem stop_add_length_le (isRead : m.IsRead) {front rest back : List Token} {first : Token} {stop : Nat}
    (eq : m.tokens = front ++ first :: (rest ++ back)) (noChunk : ∀ t ∈ rest, t.lexeme.isChunk = false)
    (covered : ∀ t ∈ first :: rest, t.stop ≤ stop) : first.stop + rest.length ≤ stop := by
  induction rest generalizing front first with
  | nil => exact covered first List.mem_cons_self
  | cons second rest ih =>
    have member : second ∈ m.tokens := by simp [eq]
    have order := isRead.reads.le_start eq (List.mem_append_left _ List.mem_cons_self)
    have pos := (isRead.reads.isText member (noChunk second List.mem_cons_self)).2.pos
    have eq' : m.tokens = (front ++ [first]) ++ second :: (rest ++ back) := by simp [eq]
    have behind := ih eq' (fun t inside => noChunk t (List.mem_cons_of_mem _ inside))
      fun t inside => covered t (List.mem_cons_of_mem _ inside)
    rw [List.length_cons]
    omega

theorem length_of_isForwarding {call : Tree} (forwards : isForwarding call = true) : 5 ≤ call.leaves.length := by
  unfold isForwarding at forwards
  simp only [Bool.or_eq_true, decide_eq_true_eq] at forwards
  rcases forwards with short | long
  · have length := congrArg List.length short
    simp at length
    omega
  · have length := congrArg List.length long
    simp at length
    omega

/-- What is put in the place of a forwarding call is shorter. -/
theorem shorter_forwarding {call : Tree} {front back : List Token} (isRead : m.IsRead)
    (forwards : isForwarding call = true)
    (cuts : Cuts m ⟨⟨call.start, call.stop⟩, "super()".toList⟩ front call.leaves back) :
    "super()".toList.length < call.stop - call.start := by
  obtain ⟨first, opener, held, closer, leaves, isSuper, opens, passes, closes⟩ := isForwarding_leaves forwards
  have count := length_of_isForwarding forwards
  have eq : m.tokens = front ++ first :: (opener :: (held ++ [closer]) ++ back) := by
    rw [cuts.eq, leaves]
    simp
  have isText := (isRead.reads.isText (show first ∈ m.tokens by simp [eq]) (by rw [isSuper]; rfl)).2
  rw [isSuper] at isText
  have width := isText.length_keyword
  have noChunk : ∀ t ∈ opener :: (held ++ [closer]), t.lexeme.isChunk = false := by
    intro t inside
    rcases List.mem_cons.mp inside with rfl | inside
    · rw [opens]; rfl
    · rcases List.mem_append.mp inside with inHeld | last
      · rcases passes t inHeld with h | h | h <;> simp [h, Lexeme.isChunk]
      · rw [List.mem_singleton.mp last, closes]; rfl
  have covered := cuts.takes.covered
  rw [leaves] at covered count
  have whole := stop_add_length_le isRead eq noChunk covered
  have start : call.start = first.start := by rw [Tree.start, leaves]; rfl
  have length : "super()".toList.length = 7 := rfl
  have spelled : Keyword.super_.spelling.length = 5 := rfl
  rw [List.length_cons] at count
  simp only at whole
  omega

/-- What an edit puts in is shorter than what it takes. -/
theorem shorter_of_mem_edits (isRead : m.IsRead) (member : e ∈ m.edits) : e.replacement.length < e.span.length := by
  have nonempty := (apart_edits isRead).nonempty e member
  obtain ⟨item, inside, wiring | ⟨_, forwarding⟩⟩ := mem_edits.mp member
  · rw [replacement_eq_nil wiring, Span.length, List.length_nil]
    omega
  · obtain ⟨before, after, split⟩ := List.append_of_mem inside
    obtain ⟨call, kept, rfl⟩ := List.mem_map.mp forwarding
    have forwards := (List.mem_filter.mp kept).2
    have scattered := scattered_nodesOf item.tree (isRead.items item inside).headed
    obtain ⟨front, back, leaves⟩ := scattered.split (List.mem_map_of_mem kept)
    exact shorter_forwarding isRead forwards (cuts_forwarding isRead split forwards leaves)

theorem length_edited_le (isRead : m.IsRead) : m.edited.length + m.edits.length ≤ m.text.length :=
  Text.Edit.length_applyAll_le (apart_edits isRead) fun _ member => shorter_of_mem_edits isRead member

/-- A module has no edits exactly if none is made for any of its items. -/
theorem edits_eq_nil_iff (isRead : m.IsRead) : m.edits = [] ↔ ∀ item ∈ m.items, item.IsLeft m.text := by
  constructor
  · intro none item member
    have noRemoval (tokens : List Token) : ¬m.Removes tokens := by
      rintro ⟨e, edit, _⟩
      rw [none] at edit
      cases edit
    have noEdit (e : Edit) : ¬EditFor m item e := by
      intro edit
      have edited := mem_edits.mpr ⟨item, member, edit⟩
      rw [none] at edited
      cases edited
    have noWiring : item.kind.isWiring = false := by
      by_contra isWiring
      refine noEdit (.remove item.start (statementStop m.text item.stop)) (Or.inl ?_)
      rw [wiringEdits_of_isWiring (by simpa using isWiring)]
      exact List.mem_singleton_self _
    refine ⟨?_, fun call inside => ?_⟩
    · cases kind : item.kind with
      | statement | exportedConstants | aliasing => trivial
      | exportedDefault => exact fun blank => noRemoval _ ((removes_default_iff isRead member kind).mpr blank)
      | exportedDeclaration => exact noRemoval _ (removes_export isRead member kind)
      | exportList | importing | reexporting | reexportingAs =>
        rw [kind] at noWiring
        cases noWiring
    · by_contra forwards
      have kept := List.mem_filter.mpr ⟨inside, by simpa using forwards⟩
      exact noEdit _ (Or.inr ⟨noWiring, List.mem_map_of_mem kept⟩)
  · intro left
    refine List.eq_nil_iff_forall_not_mem.mpr fun e edit => ?_
    obtain ⟨item, member, wiring | ⟨_, forwarding⟩⟩ := mem_edits.mp edit
    · have allowed := (left item member).wiring
      cases kind : item.kind with
      | statement | exportedConstants | aliasing => simp [wiringEdits, kind] at wiring
      | exportedDefault =>
        rw [kind] at allowed
        rcases wiringEdits_default isRead member kind with ⟨_, _, _, blank, _⟩ | ⟨none, _⟩
        · exact allowed blank
        · rw [none] at wiring
          cases wiring
      | exportedDeclaration | exportList | importing | reexporting | reexportingAs =>
        rw [kind] at allowed
        exact allowed
    · obtain ⟨call, kept, _⟩ := List.mem_map.mp forwarding
      obtain ⟨inside, forwards⟩ := List.mem_filter.mp kept
      rw [(left item member).forwarding call inside] at forwards
      cases forwards

theorem trim_sublist (cs : List Char) : (Text.trim cs).Sublist cs :=
  (List.rdropWhile_prefix Text.isBlank (cs.dropWhile Text.isBlank)).sublist.trans (List.dropWhile_sublist _)

/-- Trimming twice is trimming once. -/
theorem trim_trim (cs : List Char) : Text.trim (Text.trim cs) = Text.trim cs := by
  have starts : (Text.trim cs).dropWhile Text.isBlank = Text.trim cs := by
    obtain ⟨more, whole⟩ : Text.trim cs <+: cs.dropWhile Text.isBlank := List.rdropWhile_prefix _ _
    cases trimmed : Text.trim cs with
    | nil => rfl
    | cons c rest =>
      rw [trimmed] at whole
      have solid := List.head?_dropWhile_not Text.isBlank cs
      rw [← whole] at solid
      exact List.dropWhile_cons_of_neg (by simpa using solid)
  have ends : (Text.trim cs).rdropWhile Text.isBlank = Text.trim cs := List.rdropWhile_idempotent _ _
  rw [Text.trim, Text.trimStart, starts]
  exact ends

theorem getLast?_trim {c : Char} (cs : List Char) (last : (Text.trim cs).getLast? = some c) :
    Text.isBlank c = false := by
  have nonempty : Text.trim cs ≠ [] := by
    intro none
    rw [none] at last
    cases last
  have solid := List.rdropWhile_last_not Text.isBlank (Text.trimStart cs) nonempty
  rw [List.getLast?_eq_some_getLast nonempty] at last
  obtain rfl := Option.some.inj last
  exact Bool.eq_false_iff.mpr solid

theorem withoutByteOrderMark_suffix (source : List Char) : withoutByteOrderMark source <:+ source := by
  cases source with
  | nil => exact List.suffix_refl _
  | cons c rest =>
    rw [withoutByteOrderMark]
    split
    · exact List.suffix_cons c rest
    · exact List.suffix_refl _

theorem editedLiterals_of_nil (isRead : m.IsRead) (none : m.edits = []) : m.editedLiterals = m.literals := by
  have stays : ∀ span ∈ m.literals, Text.Edit.shift? m.edits span = some span := by
    intro span member
    obtain ⟨t, inside, rfl⟩ := List.mem_map.mp member
    have order := (isRead.reads.within (List.mem_filter.mp inside).1).1
    rw [none, Text.Edit.shift?, Text.Edit.shiftStart, Option.map_some, Int.toNat_natCast, Span.length]
    simp only
    rw [Nat.add_sub_cancel' order]
  rw [editedLiterals, List.filterMap_congr stays, List.filterMap_some]

/-- A text without white space around it stays as it is exactly if nothing is taken out of it. -/
theorem plainText_eq_self_iff (parsed : parse? source = some m) (trimmed : Text.trim source = source) :
    m.plainText = source ↔ withoutByteOrderMark source = source ∧ m.IsSettled := by
  have isRead := isRead_of_parse parsed
  have text := text_of_parse parsed
  have solid (whole : m.text = source) : m.text.getLast? ≠ some '\n' := by
    intro last
    rw [whole, ← trimmed] at last
    cases getLast?_trim source last
  have judged {start : Nat} {line : List Char} : keepsLine m.literals start line = true ↔
      ((∀ c ∈ line, Text.isBlank c = true) ∨ IsCommentLine line →
          ∃ span ∈ m.literals, span.start < start ∧ start < span.stop) := by
    rw [← Bool.not_eq_false, keepsLine_eq_false_iff]
    grind
  have dropsNone (whole : m.text = source) (none : m.edits = []) :
      compact m.editedLiterals m.edited = source ↔
        ∀ start < m.text.length, InLine m.text start start →
            keepsLine m.literals start (lineFrom m.text start) = true := by
    have unedited : m.edited = m.text := by rw [edited, none, Text.Edit.applyAll_nil]
    rw [editedLiterals_of_nil isRead none, unedited, ← compact_eq_self_iff (solid whole)]
    rw [whole]
  constructor
  · intro same
    -- no step makes the text longer, and the last one is as long as the first
    have unmarked := (withoutByteOrderMark_suffix source).length_le
    have edited := length_edited_le isRead
    have compacted := length_compact_le m.editedLiterals m.edited
    have sublist := trim_sublist (compact m.editedLiterals m.edited)
    have short := sublist.length_le
    have length := congrArg List.length same
    rw [plainText] at length same
    rw [text] at edited
    have whole : withoutByteOrderMark source = source :=
      (withoutByteOrderMark_suffix source).eq_of_length (by omega)
    have noEdits : m.edits = [] := List.eq_nil_of_length_eq_zero (by omega)
    have compactSame : compact m.editedLiterals m.edited = source := by
      rw [← same]
      exact (sublist.eq_of_length (by omega)).symm
    have kept := (dropsNone (text.trans whole) noEdits).mp compactSame
    refine ⟨whole, (edits_eq_nil_iff isRead).mp noEdits, fun start inside begins => ?_⟩
    exact judged.mp (kept start inside begins)
  · rintro ⟨whole, settled⟩
    have noEdits := (edits_eq_nil_iff isRead).mpr settled.items
    have compactSame : compact m.editedLiterals m.edited = source :=
      (dropsNone (text.trans whole) noEdits).mpr fun start inside begins =>
        judged.mpr (settled.lines start inside begins)
    rw [plainText, compactSame, trimmed]

end Module

end ModuleBundler.Script

namespace ModuleBundler

open Script (Module)

theorem result_plainText_iff {name source text : String} : (plainText name source).result = .ok text ↔
    ∃ m, Module.parse? source.toList = some m ∧ m.plainText = text.toList := by
  rw [result_plainText_ok_iff, plain?, Option.map_eq_some_iff]
  simp only [← String.toList_inj, String.toList_ofList]

/-- A script that can be parsed stays as it is exactly if it begins with no byte order mark and nothing is taken
out of it: no edit is made for any of its items, and each line of it that is blank or begins with a comment begins
inside a literal. -/
theorem plainText_again_iff {name source text : String} {m : Module}
    (first : (plainText name source).result = .ok text)
    (parsed : Module.parse? text.toList = some m) :
    (plainText name text).result = .ok text ↔
      Module.withoutByteOrderMark text.toList = text.toList ∧ m.IsSettled := by
  obtain ⟨before, _, made⟩ := result_plainText_iff.mp first
  have trimmed : Text.trim text.toList = text.toList := by
    rw [← made, Module.plainText, Module.trim_trim]
  rw [result_plainText_iff, ← Module.plainText_eq_self_iff parsed trimmed, parsed]
  simp

/-- What is left of an exported declaration has nothing left to be taken out. -/
theorem plainText_again_declaration : ∃ m, Module.parse? "const a = 1;".toList = some m ∧ m.IsSettled := by
  have made : (plainText "m.js" "// c\nexport const a = 1;\n").result = .ok "const a = 1;" := by
    rw [result_plainText_iff, ← Option.map_eq_some_iff]
    decide +kernel
  have again : (plainText "m.js" "const a = 1;").result = .ok "const a = 1;" := by
    rw [result_plainText_iff, ← Option.map_eq_some_iff]
    decide +kernel
  obtain ⟨m, parsed, _⟩ := result_plainText_iff.mp again
  exact ⟨m, parsed, ((plainText_again_iff made parsed).mp again).2⟩

/-- Once the comment line between its keywords has been dropped, the keywords of a default export are taken out. -/
theorem not_plainText_again_default :
    (plainText "m.js" "export\n// c\ndefault foo;").result = .ok "export\ndefault foo;" ∧
      (Module.parse? "export\ndefault foo;".toList).isSome ∧
      (plainText "m.js" "export\ndefault foo;").result ≠ .ok "export\ndefault foo;" := by
  simp only [ne_eq, result_plainText_iff, ← Option.map_eq_some_iff]
  decide +kernel

end ModuleBundler
