namespace ModuleBundler.Text

/-- Whether `needle` stands somewhere in `hay`. The empty text stands in every text. -/
def occursIn (needle : List Char) : List Char → Bool
  | [] => needle.isEmpty
  | c :: rest => needle.isPrefixOf (c :: rest) || occursIn needle rest

/-- Cuts a text at every `mark`. There is one piece more than there are marks. -/
def splitOn (mark : Char) : List Char → List (List Char)
  | [] => [[]]
  | c :: rest =>
    if c = mark then [] :: splitOn mark rest
    else match splitOn mark rest with
      | [] => [[c]]
      | piece :: pieces => (c :: piece) :: pieces

/-- Puts `mark` between the pieces. -/
def joinWith (mark : List Char) : List (List Char) → List Char
  | [] => []
  | [piece] => piece
  | piece :: pieces => piece ++ mark ++ joinWith mark pieces

/-- What stands before the last `mark`, if there is one. -/
def beforeLast? (mark : Char) : List Char → Option (List Char)
  | [] => none
  | c :: rest =>
    match beforeLast? mark rest with
    | some before => some (c :: before)
    | none => if c = mark then some [] else none

/-- What stands after the last `mark`; the whole text if there is none. -/
def afterLast (mark : Char) (cs : List Char) : List Char :=
  (cs.reverse.takeWhile (· ≠ mark)).reverse

/-- The text without the part from its last dot on. A text that begins with its last dot stays whole,
since nothing would be left of it. -/
def withoutExtension (cs : List Char) : List Char :=
  match beforeLast? '.' cs with
  | some (c :: before) => c :: before
  | _ => cs

theorem occursIn_iff {needle hay : List Char} : occursIn needle hay = true ↔ needle <:+: hay := by
  induction hay with
  | nil => simp [occursIn, List.isEmpty_iff]
  | cons c rest ih =>
    rw [occursIn, Bool.or_eq_true, ih, List.infix_cons_iff, List.isPrefixOf_iff_prefix]

theorem splitOn_ne_nil (mark : Char) (cs : List Char) : splitOn mark cs ≠ [] := by
  cases cs with
  | nil => simp [splitOn]
  | cons c rest =>
    rw [splitOn]
    split
    · simp
    · split <;> simp

/-- Joining undoes splitting. -/
theorem joinWith_splitOn (mark : Char) (cs : List Char) : joinWith [mark] (splitOn mark cs) = cs := by
  induction cs with
  | nil => rfl
  | cons c rest ih =>
    rw [splitOn]
    split
    · next h =>
      have split_rest := splitOn_ne_nil mark rest
      generalize splitOn mark rest = pieces at ih split_rest
      cases pieces with
      | nil => exact absurd rfl split_rest
      | cons piece pieces => simp [joinWith, ih, h]
    · split
      · next h => exact absurd h (splitOn_ne_nil mark rest)
      · next piece pieces h =>
        rw [h] at ih
        cases pieces with
        | nil => simpa [joinWith] using ih
        | cons next pieces => simpa [joinWith] using ih

end ModuleBundler.Text
