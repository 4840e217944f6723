import Mathlib.Data.List.Sort
import Mathlib.Data.List.TakeWhile
import ModuleBundler.Script.Plain

/-!
Which characters stay when lines are dropped.

`Module.compact` keeps the characters at the places `Module.keptPlaces`, in their order. Whether a place is among them
depends on where its line begins and on what the line holds: a line feed counts as the end of its line, and stays if
its line does and another line that stays comes behind it.
-/

namespace ModuleBundler.Script.Module

open Text (Span)

/-- The places of the characters that are kept in lines, the first of which begins at `start`. -/
def keptPlaces (literals : List Span) : (start : Nat) → List (List Char) → List Nat
  | _, [] => []
  | start, line :: lines =>
    let next := start + line.length + 1
    let others := keptPlaces literals next lines
    if keepsLine literals start line then
      if keptLines literals next lines = [] then List.range' start line.length
      else List.range' start (line.length + 1) ++ others
    else others

/-- The line that begins at a place. -/
def lineFrom (text : List Char) (start : Nat) : List Char := (text.drop start).takeWhile (· ≠ '\n')

/-- Whether a place belongs to the line that begins at `start`. -/
structure InLine (text : List Char) (start place : Nat) : Prop where
  le : start ≤ place
  begins : start = 0 ∨ text[start - 1]? = some '\n'
  goesOn : ∀ k, start ≤ k → k < place → text[k]? ≠ some '\n'

theorem newline_not_mem {text line : List Char} (member : line ∈ Text.splitOn '\n' text) : '\n' ∉ line := by
  induction text generalizing line with
  | nil =>
    rw [List.mem_singleton.mp member]
    exact List.not_mem_nil
  | cons c text ih =>
    rw [Text.splitOn] at member
    split at member
    · rcases List.mem_cons.mp member with rfl | later
      · exact List.not_mem_nil
      · exact ih later
    · next other =>
      split at member
      · next none => exact absurd none (Text.splitOn_ne_nil _ _)
      · next piece pieces eq =>
        rcases List.mem_cons.mp member with rfl | later
        · rw [List.mem_cons, not_or]
          exact ⟨Ne.symm other, ih (eq ▸ List.mem_cons_self)⟩
        · exact ih (eq ▸ List.mem_cons_of_mem _ later)

/-- The lines of a text from the place `start` on. -/
structure LinesFrom (text : List Char) (start : Nat) (lines : List (List Char)) : Prop where
  joined : text.drop start = Text.joinWith ['\n'] lines
  begins : start = 0 ∨ text[start - 1]? = some '\n'
  clean : ∀ line ∈ lines, '\n' ∉ line

section LinesFrom

variable {text line second : List Char} {lines : List (List Char)} {start place l : Nat} {literals : List Span}

theorem linesFrom_splitOn (text : List Char) : LinesFrom text 0 (Text.splitOn '\n' text) where
  joined := (Text.joinWith_splitOn '\n' text).symm
  begins := Or.inl rfl
  clean _ member := newline_not_mem member

/-- A text begins with its first line. The text ends there, or the line ends with a line feed. -/
theorem LinesFrom.first (from_ : LinesFrom text start (line :: lines)) :
    ∃ rest, text.drop start = line ++ rest ∧ (rest = [] ∧ lines = [] ∨ rest = '\n' :: Text.joinWith ['\n'] lines ∧
        lines ≠ []) := by
  rw [from_.joined]
  cases lines with
  | nil => exact ⟨[], (List.append_nil _).symm, Or.inl ⟨rfl, rfl⟩⟩
  | cons second lines =>
    refine ⟨'\n' :: Text.joinWith ['\n'] (second :: lines), ?_, Or.inr ⟨rfl, List.cons_ne_nil _ _⟩⟩
    exact List.append_assoc line ['\n'] _

theorem LinesFrom.lineFrom_eq (from_ : LinesFrom text start (line :: lines)) : lineFrom text start = line := by
  obtain ⟨rest, eq, ends⟩ := from_.first
  have all : ∀ c ∈ line, decide (c ≠ '\n') = true := by
    intro c member
    simp only [ne_eq, decide_eq_true_eq]
    rintro rfl
    exact from_.clean line List.mem_cons_self member
  rw [lineFrom, eq, List.takeWhile_append_of_pos all]
  rcases ends with ⟨rfl, _⟩ | ⟨rfl, _⟩ <;> simp

theorem LinesFrom.next (from_ : LinesFrom text start (line :: second :: lines)) :
    LinesFrom text (start + line.length + 1) (second :: lines) := by
  obtain ⟨rest, eq, ⟨_, none⟩ | ⟨rfl, _⟩⟩ := from_.first
  · cases none
  · refine ⟨?_, Or.inr ?_, fun l member => from_.clean l (List.mem_cons_of_mem _ member)⟩
    · rw [Nat.add_assoc, ← List.drop_drop, eq, List.drop_append]
      simp
    · rw [Nat.add_sub_cancel, ← List.getElem?_drop, eq, List.getElem?_append_right (Nat.le_refl _)]
      simp

/-- A place in the first line belongs to it. -/
theorem LinesFrom.inLine_eq (from_ : LinesFrom text start (line :: lines)) (inLine : InLine text l place)
    (lower : start ≤ place) (upper : place ≤ start + line.length) : l = start := by
  obtain ⟨rest, eq, _⟩ := from_.first
  rcases Nat.lt_trichotomy l start with before | same | behind
  · rcases from_.begins with zero | newline
    · omega
    · exact absurd newline (inLine.goesOn (start - 1) (by omega) (by omega))
  · exact same
  · rcases inLine.begins with zero | newline
    · omega
    · have le := inLine.le
      refine absurd ?_ (from_.clean line List.mem_cons_self)
      have inside : l - 1 - start < line.length := by omega
      rw [show l - 1 = start + (l - 1 - start) by omega, ← List.getElem?_drop, eq, List.getElem?_append_left inside]
        at newline
      exact List.mem_of_getElem? newline

theorem InLine.exists_start (text : List Char) (place : Nat) : ∃ start, InLine text start place := by
  induction place with
  | zero => exact ⟨0, Nat.le_refl 0, Or.inl rfl, fun k _ upper => by cases upper⟩
  | succ place ih =>
    by_cases newline : text[place]? = some '\n'
    · exact ⟨place + 1, Nat.le_refl _, Or.inr newline, fun k lower upper => by omega⟩
    · obtain ⟨start, line⟩ := ih
      refine ⟨start, Nat.le_succ_of_le line.le, line.begins, fun k lower upper => ?_⟩
      rcases Nat.lt_succ_iff_lt_or_eq.mp upper with before | rfl
      · exact line.goesOn k lower before
      · exact newline

theorem InLine.of_le {start i k : Nat} (line : InLine text start i) (lower : start ≤ k) (upper : k ≤ i) :
    InLine text start k where
  le := lower
  begins := line.begins
  goesOn j before behind := line.goesOn j before (Nat.lt_of_lt_of_le behind upper)

/-- The characters of a line begin with all that stands before a place of it. -/
theorem InLine.take_lineFrom (line : InLine text start place) (inside : place ≤ text.length) :
    ∃ rest, lineFrom text start = (text.drop start).take (place - start) ++ rest := by
  refine ⟨((text.drop start).drop (place - start)).takeWhile (· ≠ '\n'), ?_⟩
  conv => lhs; rw [lineFrom, ← List.take_append_drop (place - start) (text.drop start)]
  refine List.takeWhile_append_of_pos fun c member => ?_
  obtain ⟨k, here⟩ := List.getElem?_of_mem member
  have less := (List.getElem?_eq_some_iff.mp here).choose
  rw [List.length_take, List.length_drop] at less
  rw [List.getElem?_take_of_lt (by omega), List.getElem?_drop] at here
  have := line.goesOn (start + k) (by omega) (by omega)
  rw [here] at this
  simpa using this

theorem InLine.getElem?_lineFrom {c : Char} (line : InLine text start place) (here : text[place]? = some c)
    (goesOn : c ≠ '\n') :
    (lineFrom text start)[place - start]? = some c := by
  have inside := (List.getElem?_eq_some_iff.mp here).choose
  have le := line.le
  have longer : InLine text start (place + 1) := by
    refine ⟨by omega, line.begins, fun k lower upper => ?_⟩
    rcases Nat.lt_succ_iff_lt_or_eq.mp upper with before | rfl
    · exact line.goesOn k lower before
    · simpa [here] using goesOn
  obtain ⟨rest, eq⟩ := longer.take_lineFrom inside
  rw [eq, List.getElem?_append_left (by rw [List.length_take, List.length_drop]; omega),
    List.getElem?_take_of_lt (by omega), List.getElem?_drop, show start + (place - start) = place by omega]
  exact here

theorem getElem?_of_lineFrom {c : Char} {k : Nat} (here : (lineFrom text start)[k]? = some c) :
    text[start + k]? = some c := by
  obtain ⟨rest, eq⟩ := List.takeWhile_prefix (l := text.drop start) (· ≠ '\n')
  have inside := (List.getElem?_eq_some_iff.mp here).choose
  rw [← List.getElem?_drop, ← eq]
  exact (List.getElem?_append_left inside).trans here

/-- Whether a line begins with two slashes, apart from white space. -/
def IsCommentLine (line : List Char) : Prop :=
  ∃ blanks rest, (∀ c ∈ blanks, Text.isBlank c = true) ∧ line = blanks ++ '/' :: '/' :: rest

theorem trim_eq_nil (h : Text.trim line = []) : ∀ c ∈ line, Text.isBlank c = true := by
  rw [Text.trim, Text.trimEnd, List.reverse_eq_nil_iff, List.dropWhile_eq_nil_iff] at h
  intro c member
  rw [← List.takeWhile_append_dropWhile (p := Text.isBlank) (l := line)] at member
  rcases List.mem_append.mp member with blank | rest
  · exact List.mem_takeWhile_imp blank
  · exact h c (List.mem_reverse.mpr rest)

theorem isCommentLine_of_trim {rest : List Char} (h : Text.trim line = '/' :: '/' :: rest) : IsCommentLine line := by
  have isPrefix : Text.trim line <+: Text.trimStart line := by
    rw [Text.trim, Text.trimEnd, ← List.reverse_suffix, List.reverse_reverse]
    exact List.dropWhile_suffix _
  obtain ⟨more, eq⟩ := h ▸ isPrefix
  refine ⟨line.takeWhile Text.isBlank, rest ++ more, fun c member => List.mem_takeWhile_imp member, ?_⟩
  conv => lhs; rw [← List.takeWhile_append_dropWhile (p := Text.isBlank) (l := line)]
  exact congrArg _ eq.symm

theorem IsCommentLine.trim (h : IsCommentLine line) : ∃ rest, Text.trim line = '/' :: '/' :: rest := by
  obtain ⟨blanks, rest, blank, rfl⟩ := h
  have solid : ('/' :: '/' :: rest).dropWhile Text.isBlank = '/' :: '/' :: rest := rfl
  rw [Text.trim, Text.trimStart, List.dropWhile_append_of_pos blank, solid, Text.trimEnd, List.reverse_cons,
    List.reverse_cons, List.append_assoc, List.dropWhile_append]
  split
  · exact ⟨[], rfl⟩
  · exact ⟨_, by rw [List.reverse_append]; rfl⟩

/-- A line is dropped if it does not begin inside a literal and is blank or begins with two slashes. -/
theorem keepsLine_eq_false_iff : keepsLine literals start line = false ↔
    (∀ span ∈ literals, ¬(span.start < start ∧ start < span.stop)) ∧
      ((∀ c ∈ line, Text.isBlank c = true) ∨ IsCommentLine line) := by
  rw [keepsLine, Bool.or_eq_false_iff]
  refine and_congr (by simp) ⟨fun dropped => ?_, fun judged => ?_⟩
  · split at dropped
    · next none => exact Or.inl (trim_eq_nil none)
    · next slashes => exact Or.inr (isCommentLine_of_trim slashes)
    · cases dropped
  · rcases judged with blank | slashes
    · have none : Text.trim line = [] := by rw [Text.trim, Text.trimStart, List.dropWhile_eq_nil_iff.mpr blank]; rfl
      rw [none]
    · obtain ⟨rest, eq⟩ := slashes.trim
      simp only [eq]

/-- Whether two slashes stand at a place, with nothing but white space between it and `start`. -/
structure SlashesFrom (text : List Char) (start place : Nat) : Prop where
  le : start ≤ place
  blank : ∀ k, start ≤ k → k < place → ∃ c, text[k]? = some c ∧ Text.isBlank c = true
  first : text[place]? = some '/'
  second : text[place + 1]? = some '/'

theorem slashesFrom_of_isCommentLine (h : IsCommentLine (lineFrom text start)) : ∃ d, SlashesFrom text start d := by
  obtain ⟨blanks, rest, blank, eq⟩ := h
  have here {k : Nat} {c : Char} (at_ : (blanks ++ '/' :: '/' :: rest)[k]? = some c) : text[start + k]? = some c :=
    getElem?_of_lineFrom (eq ▸ at_)
  refine ⟨start + blanks.length, Nat.le_add_right _ _, fun k lower upper => ?_, here (by simp),
    here (k := blanks.length + 1) ?_⟩
  · have inside : k - start < blanks.length := by omega
    have found := here (k := k - start) ((List.getElem?_append_left inside).trans (List.getElem?_eq_getElem inside))
    rw [show start + (k - start) = k by omega] at found
    exact ⟨_, found, blank _ (List.getElem_mem inside)⟩
  · rw [List.getElem?_append_right (by omega)]
    simp

theorem SlashesFrom.isCommentLine {d : Nat} (slashes : SlashesFrom text start d) (line : InLine text start d) :
    IsCommentLine (lineFrom text start) := by
  have inside := (List.getElem?_eq_some_iff.mp slashes.second).choose
  have le := slashes.le
  have longer : InLine text start (d + 2) := by
    refine ⟨by omega, line.begins, fun k lower upper => ?_⟩
    rcases Nat.lt_or_ge k d with before | behind
    · exact line.goesOn k lower before
    · obtain rfl | rfl : k = d ∨ k = d + 1 := by omega
      · simp [slashes.first]
      · simp [slashes.second]
  obtain ⟨rest, eq⟩ := longer.take_lineFrom inside
  refine ⟨(text.drop start).take (d - start), rest, fun c member => ?_, ?_⟩
  · obtain ⟨k, here⟩ := List.getElem?_of_mem member
    have less := (List.getElem?_eq_some_iff.mp here).choose
    rw [List.length_take, List.length_drop] at less
    rw [List.getElem?_take_of_lt (by omega), List.getElem?_drop] at here
    obtain ⟨b, found, isBlank⟩ := slashes.blank (start + k) (by omega) (by omega)
    obtain rfl := Option.some.inj (here.symm.trans found)
    exact isBlank
  · have first : (text.drop start)[d - start]? = some '/' := by
      rw [List.getElem?_drop, show start + (d - start) = d by omega]
      exact slashes.first
    have second : (text.drop start)[d - start + 1]? = some '/' := by
      rw [List.getElem?_drop, show start + (d - start + 1) = d + 1 by omega]
      exact slashes.second
    rw [eq, show d + 2 - start = d - start + 1 + 1 by omega, List.take_add_one, List.take_add_one, first, second]
    simp

theorem map_range' (text : List Char) (start n : Nat) (bound : n ≤ text.length - start) :
    (List.range' start n).map (text[·]?) = ((text.drop start).take n).map some := by
  apply List.ext_getElem?
  intro k
  simp only [List.getElem?_map, List.getElem?_take, List.getElem?_drop]
  by_cases inside : k < n
  · have here : start + k < text.length := by omega
    simp [inside, List.getElem?_eq_getElem here]
  · simp [inside]

theorem joinWith_cons (line : List Char) (some_ : lines ≠ []) :
    Text.joinWith ['\n'] (line :: lines) = line ++ ['\n'] ++ Text.joinWith ['\n'] lines := by
  cases lines with
  | nil => exact absurd rfl some_
  | cons => rfl

/-- The lines that are kept hold the characters at the places that are kept. -/
theorem LinesFrom.map_keptPlaces (from_ : LinesFrom text start lines) :
    (keptPlaces literals start lines).map (text[·]?) =
    (Text.joinWith ['\n'] (keptLines literals start lines)).map some := by
  induction lines generalizing start with
  | nil => rfl
  | cons line lines ih =>
    obtain ⟨rest, eq, ends⟩ := from_.first
    have length := congrArg List.length eq
    rw [List.length_drop, List.length_append] at length
    have whole : (List.range' start line.length).map (text[·]?) = line.map some := by
      rw [map_range' text start line.length (by omega), eq, List.take_left]
    rw [keptPlaces, keptLines]
    by_cases last : keptLines literals (start + line.length + 1) lines = []
    · split
      · rw [last, whole]
        rfl
      · rcases ends with ⟨_, rfl⟩ | ⟨_, some_⟩
        · rfl
        · obtain ⟨second, more, rfl⟩ := List.exists_cons_of_ne_nil some_
          exact ih from_.next
    · obtain ⟨second, more, rfl⟩ : ∃ second more, lines = second :: more := by
        refine List.exists_cons_of_ne_nil fun none => last ?_
        rw [none, keptLines]
      obtain ⟨_, none⟩ | ⟨rfl, _⟩ := ends
      · cases none
      · split
        · rw [List.map_append, ih from_.next, joinWith_cons line last, List.map_append,
            map_range' text start (line.length + 1) (by rw [List.length_cons] at length; omega), eq,
            List.take_length_add_append]
          rfl
        · exact ih from_.next

theorem compact_eq (literals : List Span) (text : List Char) :
    (keptPlaces literals 0 (Text.splitOn '\n' text)).map (text[·]?) = (compact literals text).map some :=
  (linesFrom_splitOn text).map_keptPlaces

theorem start_le_of_mem_keptPlaces (member : place ∈ keptPlaces literals start lines) : start ≤ place := by
  induction lines generalizing start with
  | nil => cases member
  | cons line lines ih =>
    rw [keptPlaces] at member
    split at member
    · split at member
      · exact (List.mem_range'_1.mp member).1
      · rcases List.mem_append.mp member with here | later
        · exact (List.mem_range'_1.mp here).1
        · have := ih later
          omega
    · have := ih member
      omega

theorem keptPlaces_eq_nil (none : keptLines literals start lines = []) : keptPlaces literals start lines = [] := by
  induction lines generalizing start with
  | nil => rfl
  | cons line lines ih =>
    rw [keptLines] at none
    rw [keptPlaces]
    split at none
    · cases none
    · next dropped =>
      rw [if_neg dropped]
      exact ih none

/-- The places that are kept are listed in the order of the text. -/
theorem pairwise_keptPlaces (literals : List Span) (start : Nat) (lines : List (List Char)) :
    (keptPlaces literals start lines).Pairwise (· < ·) := by
  induction lines generalizing start with
  | nil => exact .nil
  | cons line lines ih =>
    rw [keptPlaces]
    split
    · split
      · exact List.pairwise_lt_range'
      · refine List.pairwise_append.mpr ⟨List.pairwise_lt_range', ih _, fun a here b later => ?_⟩
        have upper := (List.mem_range'_1.mp here).2
        have lower := start_le_of_mem_keptPlaces later
        omega
    · exact ih _

/-- A place that is kept stands in a line that is kept. -/
theorem LinesFrom.keepsLine_of_mem (from_ : LinesFrom text start lines) (inLine : InLine text l place)
    (member : place ∈ keptPlaces literals start lines) : keepsLine literals l (lineFrom text l) = true := by
  induction lines generalizing start with
  | nil => cases member
  | cons line lines ih =>
    have lower := start_le_of_mem_keptPlaces member
    have later (member : place ∈ keptPlaces literals (start + line.length + 1) lines) :
        keepsLine literals l (lineFrom text l) = true := by
      cases lines with
      | nil => cases member
      | cons second more => exact ih from_.next member
    rw [keptPlaces] at member
    split at member
    · next kept =>
      by_cases upper : place ≤ start + line.length
      · rw [from_.inLine_eq inLine lower upper, from_.lineFrom_eq]
        exact kept
      · split at member
        · have := (List.mem_range'_1.mp member).2
          omega
        · rcases List.mem_append.mp member with here | behind
          · have := (List.mem_range'_1.mp here).2
            omega
          · exact later behind
    · exact later member

/-- Lines are kept if one of them that begins later on is. -/
theorem LinesFrom.keptLines_ne_nil (from_ : LinesFrom text start lines) (begins : InLine text l l) (lower : start ≤ l)
    (inside : l < text.length) (kept : keepsLine literals l (lineFrom text l) = true) :
        keptLines literals start lines ≠ [] := by
  induction lines generalizing start with
  | nil =>
    have ended := List.drop_eq_nil_iff.mp from_.joined
    omega
  | cons line lines ih =>
    rw [keptLines]
    by_cases upper : l ≤ start + line.length
    · have same := from_.inLine_eq begins lower upper
      rw [same, from_.lineFrom_eq] at kept
      rw [if_pos kept]
      exact List.cons_ne_nil _ _
    · have rest : keptLines literals (start + line.length + 1) lines ≠ [] := by
        obtain ⟨rest, eq, ⟨rfl, _⟩ | ⟨_, some_⟩⟩ := from_.first
        · have length := congrArg List.length eq
          rw [List.length_drop, List.append_nil] at length
          omega
        · obtain ⟨second, more, rfl⟩ := List.exists_cons_of_ne_nil some_
          exact ih from_.next (by omega)
      split
      · exact List.cons_ne_nil _ _
      · exact rest

/-- A place in a line that is kept is kept too; a line feed only if another line that is kept comes behind it. -/
theorem LinesFrom.mem_keptPlaces (from_ : LinesFrom text start lines) (inLine : InLine text l place)
    (lower : start ≤ place)
    (inside : place < text.length) (kept : keepsLine literals l (lineFrom text l) = true)
    (ends : text[place]? = some '\n' →
      ∃ next, place < next ∧ next < text.length ∧ InLine text next next ∧
        keepsLine literals next (lineFrom text next) = true) :
    place ∈ keptPlaces literals start lines := by
  induction lines generalizing start with
  | nil =>
    have ended := List.drop_eq_nil_iff.mp from_.joined
    omega
  | cons line lines ih =>
    obtain ⟨rest, eq, last⟩ := from_.first
    have length := congrArg List.length eq
    rw [List.length_drop, List.length_append] at length
    rw [keptPlaces]
    by_cases upper : place ≤ start + line.length
    · have same := from_.inLine_eq inLine lower upper
      rw [same, from_.lineFrom_eq] at kept
      rw [if_pos kept]
      by_cases atEnd : place < start + line.length
      · split
        · exact List.mem_range'_1.mpr ⟨lower, atEnd⟩
        · exact List.mem_append_left _ (List.mem_range'_1.mpr ⟨lower, by omega⟩)
      · obtain rfl : place = start + line.length := by omega
        rcases last with ⟨rfl, _⟩ | ⟨rfl, some_⟩
        · rw [List.length_nil] at length
          omega
        · have newline : text[start + line.length]? = some '\n' := by
            rw [← List.getElem?_drop, eq, List.getElem?_append_right (Nat.le_refl _), Nat.sub_self]
            rfl
          obtain ⟨next, behind, inside, begins, keptNext⟩ := ends newline
          obtain ⟨second, more, rfl⟩ := List.exists_cons_of_ne_nil some_
          rw [if_neg (from_.next.keptLines_ne_nil begins (by omega) inside keptNext)]
          exact List.mem_append_left _ (List.mem_range'_1.mpr ⟨lower, by omega⟩)
    · have others : place ∈ keptPlaces literals (start + line.length + 1) lines := by
        rcases last with ⟨rfl, _⟩ | ⟨_, some_⟩
        · rw [List.length_nil] at length
          omega
        · obtain ⟨second, more, rfl⟩ := List.exists_cons_of_ne_nil some_
          exact ih from_.next (by omega)
      split
      · split
        · next none =>
          rw [keptPlaces_eq_nil none] at others
          cases others
        · exact List.mem_append_right _ others
      · exact others

/-- All places that are kept are places of the text. -/
theorem lt_of_mem_keptPlaces (member : place ∈ keptPlaces literals 0 (Text.splitOn '\n' text)) :
    place < text.length := by
  have here : text[place]? ∈ (keptPlaces literals 0 (Text.splitOn '\n' text)).map (text[·]?) :=
    List.mem_map_of_mem member
  rw [compact_eq] at here
  obtain ⟨c, _, same⟩ := List.mem_map.mp here
  exact (List.getElem?_eq_some_iff.mp same.symm).choose

theorem keptPlaces_subperm (literals : List Span) (text : List Char) :
    List.Subperm (keptPlaces literals 0 (Text.splitOn '\n' text)) (List.range text.length) :=
  List.subperm_of_subset ((pairwise_keptPlaces literals 0 _).imp Nat.ne_of_lt) fun _ member =>
    List.mem_range.mpr (lt_of_mem_keptPlaces member)

theorem length_compact (literals : List Span) (text : List Char) :
    (compact literals text).length = (keptPlaces literals 0 (Text.splitOn '\n' text)).length := by
  have same := congrArg List.length (compact_eq literals text)
  rw [List.length_map, List.length_map] at same
  exact same.symm

theorem length_compact_le (literals : List Span) (text : List Char) :
    (compact literals text).length ≤ text.length := by
  have fewer := (keptPlaces_subperm literals text).length_le
  rwa [List.length_range, ← length_compact] at fewer

/-- A text that does not end with a line feed stays as it is exactly if all its lines are kept. -/
theorem compact_eq_self_iff (ends : text.getLast? ≠ some '\n') :
    compact literals text = text ↔
      ∀ start < text.length, InLine text start start → keepsLine literals start (lineFrom text start) = true := by
  have lines := linesFrom_splitOn text
  constructor
  · intro same start inside begins
    have all := (keptPlaces_subperm literals text).perm_of_length_le
      (by rw [List.length_range, ← length_compact, same])
    exact lines.keepsLine_of_mem begins (all.mem_iff.mpr (List.mem_range.mpr inside))
  · intro kept
    have all (place : Nat) (inside : place < text.length) :
        place ∈ keptPlaces literals 0 (Text.splitOn '\n' text) := by
      obtain ⟨start, line⟩ := InLine.exists_start text place
      have lower := line.le
      have begins := line.of_le (Nat.le_refl _) lower
      refine lines.mem_keptPlaces line (Nat.zero_le _) inside (kept start (by omega) begins) fun newline => ?_
      have next : place + 1 < text.length := by
        by_contra last
        rw [List.getLast?_eq_getElem?, show text.length - 1 = place by omega] at ends
        exact ends newline
      have begins' : InLine text (place + 1) (place + 1) :=
        ⟨Nat.le_refl _, Or.inr newline, fun k lower upper => by omega⟩
      exact ⟨place + 1, Nat.lt_succ_self _, next, begins', kept _ next begins'⟩
    have perm : (keptPlaces literals 0 (Text.splitOn '\n' text)).Perm (List.range text.length) :=
      (keptPlaces_subperm literals text).antisymm
        (List.subperm_of_subset List.nodup_range fun place member => all place (List.mem_range.mp member))
    have same := perm.eq_of_pairwise' (pairwise_keptPlaces literals 0 _) List.pairwise_lt_range
    have whole := map_range' text 0 text.length (Nat.le_refl _)
    rw [← List.range_eq_range', ← same, compact_eq, List.drop_zero, List.take_length] at whole
    exact (List.map_injective_iff.mpr (Option.some_injective _)) whole

end LinesFrom

end ModuleBundler.Script.Module
