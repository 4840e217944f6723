import ModuleBundler.Bundle
import ModuleBundler.Proofs.Path

namespace ModuleBundler

/-- How the line above a part begins. -/
def headingStart : List Char := "// === ".toList

/-- Whether no line of a text begins like the line above a part. -/
def IsUnmarked (text : String) : Prop := ∀ line ∈ Text.splitOn '\n' text.toList, ¬headingStart <+: line

instance (text : String) : Decidable (IsUnmarked text) := inferInstanceAs (Decidable (∀ line ∈ _, _))

/-- A text is known by its pieces. -/
theorem eq_of_splitOn_eq {mark : Char} {text other : String}
    (same : Text.splitOn mark text.toList = Text.splitOn mark other.toList) :
    text = other := by
  rw [← String.toList_inj, ← Text.joinWith_splitOn mark text.toList, same, Text.joinWith_splitOn]

variable {fragment : Fragment} {path other : String}

theorem headingStart_provenance (path : String) : headingStart <+: (provenance path).toList := by
  rw [provenance, String.append_assoc, String.toList_append]
  exact List.prefix_append _ _

theorem provenance_injective (same : (provenance path).toList = (provenance other).toList) : path = other := by
  simpa [provenance, String.toList_inj] using same

theorem newline_notMem_provenance (oneLine : '\n' ∉ path.toList) : '\n' ∉ (provenance path).toList := by
  simpa [provenance] using oneLine

namespace Fragment

/-- Whether the line above the text of a module can be told from all other lines. -/
structure IsUnmarked (fragment : Fragment) : Prop where
  oneLine : '\n' ∉ fragment.path.toList
  notEntry : fragment.path ≠ "Main Entry Point"
  text : ModuleBundler.IsUnmarked fragment.text

instance (fragment : Fragment) : Decidable fragment.IsUnmarked :=
  decidable_of_iff ('\n' ∉ fragment.path.toList ∧ fragment.path ≠ "Main Entry Point" ∧
    ModuleBundler.IsUnmarked fragment.text)
    ⟨fun ⟨oneLine, notEntry, text⟩ => ⟨oneLine, notEntry, text⟩,
      fun unmarked => ⟨unmarked.oneLine, unmarked.notEntry, unmarked.text⟩⟩

/-- The lines behind the line above the text of a module. -/
def textLines (fragment : Fragment) : List (List Char) := Text.splitOn '\n' fragment.text.toList ++ [[]]

/-- A block is cut into its lines, whatever stands behind it. -/
theorem splitOn_block (oneLine : '\n' ∉ fragment.path.toList) (rest : List Char) :
    Text.splitOn '\n' (fragment.block.toList ++ rest) =
    (provenance fragment.path).toList :: (fragment.textLines ++ Text.splitOn '\n' rest) := by
  have cut : fragment.block.toList ++ rest =
      (provenance fragment.path).toList ++ '\n' :: (fragment.text.toList ++ '\n' :: '\n' :: rest) := by
    simp [block]
  rw [cut, Text.splitOn_append, Text.splitOn_append, Text.splitOn_cons_self,
    Text.splitOn_eq_self (newline_notMem_provenance oneLine),
    List.singleton_append, textLines, List.append_assoc, List.singleton_append]

theorem eq_of_textLines {fragment' : Fragment} (path : fragment.path = fragment'.path)
    (lines : fragment.textLines = fragment'.textLines) :
    fragment = fragment' := by
  cases fragment
  cases fragment'
  rw [mk.injEq]
  exact ⟨path, eq_of_splitOn_eq (List.append_cancel_right lines)⟩

theorem IsUnmarked.textLines (unmarked : fragment.IsUnmarked) {line : List Char}
    (member : line ∈ fragment.textLines) :
    ¬headingStart <+: line := by
  rcases List.mem_append.mp member with inText | inBreak
  · exact unmarked.text line inText
  · cases List.mem_singleton.mp inBreak
    decide

end Fragment

namespace Bundle

/-- Whether the lines above the parts of a bundle can be told from all other lines. -/
structure IsUnmarked (bundle : Bundle) : Prop where
  fragment : ∀ fragment ∈ bundle.fragments, fragment.IsUnmarked
  entry : ∀ text ∈ bundle.entry, ModuleBundler.IsUnmarked text

instance (bundle : Bundle) : Decidable bundle.IsUnmarked :=
  decidable_of_iff ((∀ fragment ∈ bundle.fragments, fragment.IsUnmarked) ∧ ∀ text ∈ bundle.entry,
    ModuleBundler.IsUnmarked text)
    ⟨fun ⟨fragment, entry⟩ => ⟨fragment, entry⟩, fun unmarked => ⟨unmarked.fragment, unmarked.entry⟩⟩

variable {b c : Bundle} {fragments : List Fragment} {entry other : Option String}
  {front front' rest rest' more : List (List Char)}

/-- The lines at the end of a bundle. -/
def entryLines : Option String → List (List Char)
  | some text => entryMark.toList :: Text.splitOn '\n' text.toList
  | none => [[]]

/-- The lines of a bundle, part by part. -/
def lines (fragments : List Fragment) (entry : Option String) : List (List Char) :=
  fragments.flatMap (fun fragment => (provenance fragment.path).toList :: fragment.textLines) ++ entryLines entry

theorem lines_cons (fragment : Fragment) (fragments : List Fragment) (entry : Option String) :
    lines (fragment :: fragments) entry = (provenance fragment.path).toList ::
        (fragment.textLines ++ lines fragments entry) := by
  simp [lines]

theorem splitOn_text (oneLine : ∀ fragment ∈ b.fragments, '\n' ∉ fragment.path.toList) :
    Text.splitOn '\n' b.text.toList = lines b.fragments b.entry := by
  obtain ⟨fragments, entry⟩ := b
  induction fragments with
  | nil =>
    cases entry with
    | none => rfl
    | some text =>
      have cut : (Bundle.text ⟨[], some text⟩).toList = entryMark.toList ++ '\n' :: text.toList := by
        simp [Bundle.text]
      rw [cut, Text.splitOn_append, Text.splitOn_eq_self (by decide)]
      rfl
  | cons fragment fragments ih =>
    have cut : (Bundle.text ⟨fragment :: fragments, entry⟩).toList =
        fragment.block.toList ++ (Bundle.text ⟨fragments, entry⟩).toList := by
      simp [Bundle.text]
    obtain ⟨here, others⟩ := List.forall_mem_cons.mp oneLine
    rw [cut, Fragment.splitOn_block here, ih others, lines_cons]

/-- Whether lines can stand behind the text of a module: they begin with a line above a part, or
are the end of the bundle. -/
def StandsBehind (rest : List (List Char)) : Prop := rest = [[]] ∨ ∃ line ∈ rest.head?, headingStart <+: line

theorem standsBehind_lines (fragments : List Fragment) (entry : Option String) :
    StandsBehind (lines fragments entry) := by
  cases fragments with
  | nil =>
    cases entry with
    | none => exact Or.inl rfl
    | some text => exact Or.inr ⟨_, rfl, headingStart_provenance _⟩
  | cons fragment fragments => exact Or.inr ⟨_, by rw [lines_cons]; rfl, headingStart_provenance _⟩

/-- What stands behind the text of a module cannot be moved back. -/
theorem eq_nil_of_standsBehind (behind : StandsBehind (more ++ rest)) (some : rest ≠ [])
    (clear : ∀ line ∈ more, ¬headingStart <+: line) : more = [] := by
  by_contra nonempty
  obtain ⟨first, more, rfl⟩ := List.exists_cons_of_ne_nil nonempty
  rcases behind with last | ⟨line, isFirst, heading⟩
  · exact some (List.append_eq_nil_iff.mp (List.cons.inj last).2).2
  · cases isFirst
    exact clear _ List.mem_cons_self heading

theorem StandsBehind.ne_nil (behind : StandsBehind rest) : rest ≠ [] := by
  rcases behind with rfl | ⟨line, isFirst, _⟩
  · exact List.cons_ne_nil _ _
  · rintro rfl
    cases isFirst

/-- There is one place only where the text of a module can end. -/
theorem append_inj_of_standsBehind (clear : ∀ line ∈ front, ¬headingStart <+: line)
    (clear' : ∀ line ∈ front', ¬headingStart <+: line)
    (behind : StandsBehind rest) (behind' : StandsBehind rest') (same : front ++ rest = front' ++ rest') :
    front = front' ∧ rest = rest' := by
  rcases List.append_eq_append_iff.mp same with ⟨more, rfl, rfl⟩ | ⟨more, rfl, rfl⟩
  · cases eq_nil_of_standsBehind behind behind'.ne_nil fun line member => clear' line (List.mem_append_right _ member)
    exact ⟨(List.append_nil _).symm, rfl⟩
  · cases eq_nil_of_standsBehind behind' behind.ne_nil fun line member => clear line (List.mem_append_right _ member)
    exact ⟨List.append_nil _, rfl⟩

theorem entryLines_injective (same : entryLines entry = entryLines other) : entry = other := by
  cases entry with
  | none =>
    cases other with
    | none => rfl
    | some => exact absurd (List.cons.inj same).1 (by decide)
  | some text =>
    cases other with
    | none => exact absurd (List.cons.inj same).1 (by decide)
    | some text' => rw [eq_of_splitOn_eq (List.cons.inj same).2]

/-- The end of a bundle is not taken for the text of a module. -/
theorem entryLines_ne_lines (unmarked : fragment.IsUnmarked) (fragments : List Fragment)
    (entry other : Option String) :
    entryLines entry ≠ lines (fragment :: fragments) other := by
  rw [lines_cons]
  intro same
  cases entry with
  | none =>
    have heading := headingStart_provenance fragment.path
    rw [← (List.cons.inj same).1] at heading
    exact absurd heading (by decide)
  | some text => exact unmarked.notEntry (provenance_injective (List.cons.inj same).1).symm

/-- The lines of a bundle show its parts. -/
theorem eq_of_lines_eq (first : b.IsUnmarked) (second : c.IsUnmarked)
    (same : lines b.fragments b.entry = lines c.fragments c.entry) : b = c := by
  obtain ⟨fragments, entry⟩ := b
  obtain ⟨others, other⟩ := c
  -- where one bundle is at its end, the other one is as well, since its next line would be that above a fragment
  induction fragments generalizing others with
  | nil =>
    cases others with
    | nil => exact congrArg (Bundle.mk []) (entryLines_injective same)
    | cons fragment others =>
      exact absurd same (entryLines_ne_lines (second.fragment fragment List.mem_cons_self) others entry other)
  | cons fragment fragments ih =>
    cases others with
    | nil =>
      exact absurd same.symm (entryLines_ne_lines (first.fragment fragment List.mem_cons_self) fragments other entry)
    | cons fragment' others =>
      obtain ⟨here, rest⟩ := List.forall_mem_cons.mp first.fragment
      obtain ⟨here', rest'⟩ := List.forall_mem_cons.mp second.fragment
      rw [lines_cons, lines_cons] at same
      obtain ⟨heading, behind⟩ := List.cons.inj same
      obtain ⟨textLines, behind⟩ := append_inj_of_standsBehind (fun _ => here.textLines) (fun _ => here'.textLines)
        (standsBehind_lines fragments entry) (standsBehind_lines others other) behind
      have eq := ih ⟨rest, first.entry⟩ others ⟨rest', second.entry⟩ behind
      rw [Bundle.mk.injEq] at eq ⊢
      rw [Fragment.eq_of_textLines (provenance_injective heading) textLines, eq.1, eq.2]
      exact ⟨rfl, rfl⟩

/-- Bundles whose parts can be told from the lines above them have the same text only if they are the same. -/
theorem text_eq_iff_of_unmarked (first : b.IsUnmarked) (second : c.IsUnmarked) : b.text = c.text ↔ b = c := by
  refine ⟨fun same => eq_of_lines_eq first second ?_, congrArg text⟩
  rw [← splitOn_text fun fragment member => (first.fragment fragment member).oneLine,
    ← splitOn_text fun fragment member => (second.fragment fragment member).oneLine, same]

/-- A bundle with the text of one module, which is a line break, and with this entry. -/
def oneBreak (entry : Option String) : Bundle where
  fragments := [⟨"core/a.js", "\n"⟩]
  entry := entry

/-- An empty entry module is told from none, though it adds nothing but the line above it. -/
theorem text_oneBreak_ne : (oneBreak none).IsUnmarked ∧ (oneBreak (some "")).IsUnmarked ∧
    ((oneBreak none).text = (oneBreak (some "")).text ↔ oneBreak none = oneBreak (some "")) ∧
    (oneBreak none).text ≠ (oneBreak (some "")).text := by
  have first : (oneBreak none).IsUnmarked := by decide
  have second : (oneBreak (some "")).IsUnmarked := by decide
  have iff := text_eq_iff_of_unmarked first second
  exact ⟨first, second, iff, fun same => absurd (iff.mp same) (by decide)⟩

end Bundle

end ModuleBundler
