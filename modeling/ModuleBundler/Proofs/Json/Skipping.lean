import ModuleBundler.Proofs.Json.Text

/-!
Values that nobody needs.

The reader moves over such a value part by part and keeps in which lists and objects it is. Of each form that a
value may have it is shown that the reader comes to the end of the value, whatever it is in (`Reader.skips`). Where
a number ends is only seen by what follows it, so something has to follow that cannot go on with a number
(`Reader.EndsNumber`).
-/

namespace ModuleBundler.Json

theorem bytesOf_eq_map {cs : List Char} (ascii : ∀ c ∈ cs, c.toNat < 128) : bytesOf cs = cs.map byte := by
  induction cs with
  | nil => rfl
  | cons c cs ih =>
    rw [bytesOf_ascii (ascii c List.mem_cons_self),
      ih fun d member => ascii d (List.mem_cons_of_mem _ member), List.map_cons]

theorem AreBlank.isBlank {b : List Char} (blank : AreBlank b) : ∀ x ∈ bytesOf b, Json.isBlank x = true := by
  have each : ∀ c ∈ [' ', '\n', '\t', '\r'], c.toNat < 128 ∧ Json.isBlank (byte c) = true := forall_mem (by decide)
  rw [bytesOf_eq_map fun c member => (each c (blank c member)).1]
  intro x member
  obtain ⟨c, inside, rfl⟩ := List.mem_map.mp member
  exact (each c (blank c inside)).2

theorem AreDigits.bytes {ds : List Char} (are : AreDigits ds) :
    bytesOf ds = ds.map byte ∧ ∀ x ∈ ds.map byte, isDigit x = true := by
  have each : ∀ c ∈ "0123456789".toList, c.toNat < 128 ∧ isDigit (byte c) = true := forall_mem (by decide)
  refine ⟨bytesOf_eq_map fun c member => (each c (are.2 c member)).1, fun x member => ?_⟩
  obtain ⟨c, inside, rfl⟩ := List.mem_map.mp member
  exact (each c (are.2 c inside)).2

namespace Reader

variable {p : UInt8 → Bool} (atEnd : Problem) {x : UInt8} {front rest bytes : List UInt8}
  {b w ds cs : List Char} {c : Char}

theorem run_takeWhile (all : ∀ x ∈ front, p x = true) (stops : ∀ x ∈ rest.head?, p x = false) :
    (takeWhile p).run (front ++ rest) = .ok (front, rest) := by
  have taken : (takeWhile p).run (front ++ rest) = .ok ((front ++ rest).takeWhile p, (front ++ rest).dropWhile p) :=
    rfl
  rw [taken, List.takeWhile_append_of_pos all, List.dropWhile_append_of_pos all]
  cases rest with
  | nil => rw [List.takeWhile_nil, List.dropWhile_nil, List.append_nil]
  | cons x rest =>
    have stop := stops x rfl
    rw [List.takeWhile_cons_of_neg (by simp [stop]), List.dropWhile_cons_of_neg (by simp [stop]), List.append_nil]

theorem run_blanks (blank : AreBlank b) (visible : isBlank x = false) (rest : List UInt8) :
    (takeWhile isBlank).run (bytesOf b ++ x :: rest) = .ok (bytesOf b, x :: rest) := by
  refine run_takeWhile blank.isBlank fun y here => ?_
  rw [← Option.some.inj here]
  exact visible

theorem run_takePart (blank : AreBlank b) (visible : isBlank x = false) (rest : List UInt8) :
    takePart.run (bytesOf b ++ x :: rest) = .ok (x, rest) := by
  rw [takePart, run_bind_of (run_blanks blank visible rest)]
  rfl

theorem run_peekPart (blank : AreBlank b) (visible : isBlank x = false) (rest : List UInt8) :
    peekPart.run (bytesOf b ++ x :: rest) = .ok (x, x :: rest) := by
  rw [peekPart, run_bind_of (run_blanks blank visible rest)]
  rfl

/-- Whether some bytes cannot go on with a number. -/
def EndsNumber (rest : List UInt8) : Prop := ∀ x ∈ rest.head?, isDigit x = false ∧ x ∉ ['.', 'e', 'E'].map byte

theorem run_digits (are : AreDigits ds) (ends : ∀ x ∈ rest.head?, isDigit x = false) :
    (digits atEnd).run (bytesOf ds ++ rest) = .ok (bytesOf ds, rest) := by
  obtain ⟨bytes, all⟩ := are.bytes
  obtain ⟨d, ds, rfl⟩ := List.exists_cons_of_ne_nil are.1
  rw [bytes, List.map_cons] at *
  rw [digits, List.cons_append, run_take_bind, if_pos (all _ List.mem_cons_self),
    run_bind_of (run_takeWhile (fun x member => all x (List.mem_cons_of_mem _ member)) ends)]
  rfl

theorem run_takeIf_some (here : c ∈ cs) : (takeIf cs).run (byte c :: rest) = .ok (some (byte c), rest) := by
  have step : (takeIf cs).run (byte c :: rest) =
      (if (cs.map byte).contains (byte c) then do return some (← take .malformed) else return none : Reader _).run
        (byte c :: rest) := rfl
  rw [step, if_pos (List.contains_iff_mem.mpr (List.mem_map_of_mem here))]
  rfl

theorem run_takeIf_none (other : ∀ x ∈ rest.head?, x ∉ cs.map byte) : (takeIf cs).run rest = .ok (none, rest) := by
  cases rest with
  | nil => rfl
  | cons x rest =>
    have step : (takeIf cs).run (x :: rest) =
        (if (cs.map byte).contains x then do return some (← take .malformed) else return none : Reader _).run
        (x :: rest) := rfl
    rw [step, if_neg fun here => other x rfl (List.contains_iff_mem.mp here)]
    rfl

/-- The digits behind the point of a number. -/
def fractionDigits (atEnd : Problem) : Reader (List UInt8) := do
  if (← takeIf ['.']).isSome then digits atEnd else return []

/-- The exponent of a number. -/
def exponent (atEnd : Problem) : Reader Int := do
  if (← takeIf ['e', 'E']).isSome then
    let sign ← takeIf ['+', '-']
    let size := digitsValue (← digits atEnd)
    return if sign = some (byte '-') then -size else size
  else return 0

theorem ite_bind {α β : Type} {P : Prop} [Decidable P] (reader other : Reader α) (f : α → Reader β) :
    (if P then reader else other) >>= f = if P then reader >>= f else other >>= f :=
  apply_ite (· >>= f) P reader other

theorem number_eq (atEnd : Problem) : number atEnd = do
    let whole ← digits atEnd
    if whole.head? = some (byte '0') && 1 < whole.length then throw .malformed
    let fraction ← fractionDigits atEnd
    let exponent ← exponent atEnd
    return ⟨digitsValue (whole ++ fraction), exponent - fraction.length⟩ := by
  simp only [number, fractionDigits, exponent, bind_assoc, ite_bind]

theorem exists_head_digit (are : AreDigits ds) (rest : List UInt8) :
    ∃ d ∈ "0123456789".toList, (bytesOf ds ++ rest).head? = some (byte d) := by
  obtain ⟨d, ds, rfl⟩ := List.exists_cons_of_ne_nil are.1
  exact ⟨d, are.2 d List.mem_cons_self, by rw [are.bytes.1]; rfl⟩

theorem run_fractionDigits (isFraction : IsFraction w) (ends : ∀ x ∈ rest.head?, isDigit x = false ∧ x ≠ byte '.') :
    ∃ found, (fractionDigits atEnd).run (bytesOf w ++ rest) = .ok (found, rest) := by
  cases isFraction with
  | none =>
    have noPoint : ∀ x ∈ rest.head?, x ∉ [byte '.'] := fun x here => mt List.mem_singleton.mp (ends x here).2
    exact ⟨[], run_bind_of (run_takeIf_none noPoint)⟩
  | @some ds are =>
    refine ⟨bytesOf ds, ?_⟩
    rw [bytesOf_ascii (by decide), fractionDigits, List.cons_append,
      run_bind_of (run_takeIf_some (List.mem_singleton_self _))]
    exact run_digits atEnd are fun x here => (ends x here).1

theorem run_exponent (isExponent : IsExponent w) (ends : EndsNumber rest) :
    ∃ n, (exponent atEnd).run (bytesOf w ++ rest) = .ok (n, rest) := by
  cases isExponent with
  | none =>
    exact ⟨0, run_bind_of (run_takeIf_none fun x here member => (ends x here).2 (List.mem_cons_of_mem _ member))⟩
  | @some e sign ds isE isSign are =>
    have ascii : ∀ c ∈ ['e', 'E'], c.toNat < 128 := forall_mem (by decide)
    have size := run_digits atEnd are fun x here => (ends x here).1
    have noSign : ∀ d ∈ "0123456789".toList, byte d ∉ ['+', '-'].map byte := forall_mem (by decide)
    have unsigned : ∀ x ∈ (bytesOf ds ++ rest).head?, x ∉ ['+', '-'].map byte := by
      obtain ⟨d, isDigit, head⟩ := exists_head_digit are rest
      rw [head]
      rintro x ⟨⟩
      exact noSign d isDigit
    have read : ∃ found, (takeIf ['+', '-']).run (bytesOf sign ++ (bytesOf ds ++ rest)) =
        .ok (found, bytesOf ds ++ rest) := by
      simp only [List.mem_cons, List.not_mem_nil, or_false] at isSign
      rcases isSign with rfl | rfl | rfl
      · exact ⟨_, run_takeIf_none unsigned⟩
      · exact ⟨_, run_takeIf_some (by decide)⟩
      · exact ⟨_, run_takeIf_some (by decide)⟩
    obtain ⟨found, read⟩ := read
    refine ⟨if found = some (byte '-') then -(digitsValue (bytesOf ds) : Int) else digitsValue (bytesOf ds), ?_⟩
    rw [bytesOf_ascii (ascii e isE), bytesOf_append, exponent, List.cons_append, List.append_assoc,
      run_bind_of (run_takeIf_some isE), if_pos Option.isSome_some, run_bind_of read, run_bind_of size]
    rfl

/-- What may follow the digits of a number is no digit, and what may follow its fraction no point. -/
theorem ends_exponent (isExponent : IsExponent w) (ends : EndsNumber rest) :
    ∀ x ∈ (bytesOf w ++ rest).head?, isDigit x = false ∧ x ≠ byte '.' := by
  cases isExponent with
  | none => exact fun x here => ⟨(ends x here).1, fun same => (ends x here).2 (same ▸ by decide)⟩
  | @some e sign ds isE _ _ =>
    have each : ∀ c ∈ ['e', 'E'], c.toNat < 128 ∧ isDigit (byte c) = false ∧ byte c ≠ byte '.' :=
      forall_mem (by decide)
    rw [bytesOf_ascii (each e isE).1]
    rintro x ⟨⟩
    exact (each e isE).2

theorem ends_fraction (isFraction : IsFraction w) (ends : ∀ x ∈ rest.head?, isDigit x = false) :
    ∀ x ∈ (bytesOf w ++ rest).head?, isDigit x = false := by
  cases isFraction with
  | none => exact ends
  | some _ =>
    rw [bytesOf_ascii (by decide)]
    rintro x ⟨⟩
    decide

theorem zero_alone (are : AreDigits ds) (noZero : ds.head? = some '0' → ds = ['0']) :
    ¬((bytesOf ds).head? = some (byte '0') && 1 < (bytesOf ds).length) = true := by
  rw [are.bytes.1]
  intro long
  simp only [Bool.and_eq_true, decide_eq_true_eq, List.head?_map, Option.map_eq_some_iff] at long
  obtain ⟨⟨d, head, same⟩, long⟩ := long
  have isZero : ∀ d ∈ "0123456789".toList, byte d = byte '0' → d = '0' := forall_mem (by decide)
  rw [isZero d (are.2 d (List.mem_of_head? head)) same] at head
  rw [noZero head] at long
  exact absurd long (by decide)

/-- A number without its sign is read up to its end. -/
theorem run_number {whole fraction exponent : List Char} (are : AreDigits whole)
    (noZero : whole.head? = some '0' → whole = ['0'])
    (isFraction : IsFraction fraction) (isExponent : IsExponent exponent) (ends : EndsNumber rest) :
    ∃ n, (number atEnd).run (bytesOf (whole ++ (fraction ++ exponent)) ++ rest) = .ok (n, rest) := by
  have behindFraction := ends_exponent isExponent ends
  have behindWhole := ends_fraction isFraction fun x here => (behindFraction x here).1
  obtain ⟨ds, fractionRead⟩ := run_fractionDigits atEnd isFraction behindFraction
  obtain ⟨n, exponentRead⟩ := run_exponent atEnd isExponent ends
  refine ⟨⟨digitsValue (bytesOf whole ++ ds), n - ds.length⟩, ?_⟩
  rw [bytesOf_append, bytesOf_append, List.append_assoc, List.append_assoc, number_eq,
    run_bind_of (run_digits atEnd are behindWhole),
    if_neg (zero_alone are noZero), run_bind_of fractionRead, run_bind_of exponentRead]
  rfl

theorem run_escape_skipped {digits : List Char} {n : Nat} (isUnit : IsUnit digits n) (rest : List UInt8) :
    (escape false).run (bytesOf ('u' :: digits) ++ rest) = .ok ([], rest) := by
  have step : (escape false).run (byte 'u' :: (bytesOf digits ++ rest)) =
      (unit >>= fun _ => return [] : Reader (List UInt8)).run (bytesOf digits ++ rest) := rfl
  rw [bytesOf_ascii (by decide), List.cons_append, step, run_bind_of (run_unit_of isUnit rest)]
  rfl

theorem exists_readsAs_of_isPiece (isPiece : IsPiece w) : ∃ value, ReadsAs false (bytesOf w) value := by
  cases isPiece with
  | @plain c noQuote noEscape visible =>
    refine ⟨String.utf8EncodeChar c, ?_⟩
    rw [bytesOf, List.flatMap_singleton]
    exact readsAs_plain fun x member => isPlainByte_of_mem noQuote noEscape visible member
  | letter escape => exact ⟨_, readsAs_letter escape⟩
  | @unit digits n isUnit =>
    rw [bytesOf_ascii (by decide)]
    exact ⟨[], readsAs_escape (run_escape_skipped isUnit)⟩

theorem exists_readsAs_of_isText (isText : IsText w) : ∃ value, ReadsAs false (bytesOf w) value := by
  induction isText with
  | nil => exact ⟨[], readsAs_nil⟩
  | cons first _ ih =>
    obtain ⟨value, first⟩ := exists_readsAs_of_isPiece first
    obtain ⟨value', others⟩ := ih
    rw [bytesOf_append]
    exact ⟨value ++ value', first.append others⟩

theorem run_textBytes_of_isText (isText : IsText w) (rest : List UInt8) :
    ∃ value, (textBytes false).run (bytesOf (w ++ ['"']) ++ rest) = .ok (value, rest) := by
  obtain ⟨value, reads⟩ := exists_readsAs_of_isText isText
  rw [bytesOf_append, List.append_assoc]
  exact ⟨value.reverse, run_textBytes reads⟩

/-- One round of `skip`. -/
def skipStep : List Container × Expected → Reader (Option (List Container × Expected)) :=
    fun (containers, expected) => do
  if containers.isEmpty && expected = .separator then return none
  return some (← skipPart containers expected)

theorem skip_eq : skip = iterate (([] : List Container), Expected.value) skipStep >>= fun _ => return () := rfl

variable {containers : List Container} {expected : Expected} {next : List Container × Expected}

/-- Whether a value should come. -/
def AwaitsValue (expected : Expected) : Prop := expected = .value ∨ expected = .elementOrEnd

/-- Whether the name of a member should come. -/
def AwaitsName (expected : Expected) : Prop := expected = .key ∨ expected = .keyOrEnd

/-- Whether a character is one byte and no blank. -/
def IsMark (c : Char) : Prop := c.toNat < 128 ∧ isBlank (byte c) = false

instance (c : Char) : Decidable (IsMark c) := inferInstanceAs (Decidable (_ ∧ _))

/-- A part of a value is moved over in one round, with the blanks before it. -/
theorem goes_part {P : List UInt8 → Prop} (inside : containers ≠ [] ∨ expected ≠ .separator)
    (blank : AreBlank b) (isMark : IsMark c)
    (part : ∀ rest, P rest → (skipPart containers expected).run (byte c :: (bytesOf w ++ rest)) = .ok (next, rest)) :
    Goes skipStep P (bytesOf (b ++ c :: w)) (containers, expected) next := by
  rw [bytesOf_append, bytesOf_ascii isMark.1]
  refine goes_round (List.append_ne_nil_of_right_ne_nil _ (List.cons_ne_nil _ _)) fun rest follows => ?_
  have goesOn : ¬(containers.isEmpty && expected = .separator) = true := by
    rw [Bool.and_eq_true, List.isEmpty_iff, decide_eq_true_eq]
    tauto
  have step (bytes : List UInt8) : (skipStep (containers, expected)).run bytes =
      (if (containers.isEmpty && expected = .separator) = true then pure none
        else do return some (← skipPart containers expected) : Reader _).run bytes := rfl
  have bare (bytes : List UInt8) : takePart.run (byte c :: bytes) = .ok (byte c, bytes) :=
    run_takePart areBlank_nil isMark.2 bytes
  have behind : (skipPart containers expected).run (bytesOf b ++ byte c :: (bytesOf w ++ rest)) =
      .ok (next, rest) := by
    rw [← part rest follows, skipPart, run_bind_of (run_takePart blank isMark.2 _), run_bind_of (bare _)]
  rw [List.append_assoc, List.cons_append, step, if_neg goesOn, run_bind_of behind]
  rfl

theorem run_skipPart_value (awaits : AwaitsValue expected) (isMark : IsMark c) (noEnd : byte c ≠ byte ']')
    (rest : List UInt8) :
    (skipPart containers expected).run (byte c :: rest) = (skipFrom (byte c) containers).run rest := by
  have bare : takePart.run (byte c :: rest) = .ok (byte c, rest) := run_takePart areBlank_nil isMark.2 rest
  rw [skipPart, run_bind_of bare]
  rcases awaits with rfl | rfl
  · rfl
  · exact congrArg (StateT.run · rest) (if_neg noEnd)

theorem run_skipPart_name (awaits : AwaitsName expected) (isText : IsText w) (rest : List UInt8) :
    (skipPart containers expected).run (byte '"' :: (bytesOf (w ++ ['"']) ++ rest)) =
        .ok ((containers, .colon), rest) := by
  obtain ⟨value, read⟩ := run_textBytes_of_isText isText rest
  have step : (skipPart containers expected).run (byte '"' :: (bytesOf (w ++ ['"']) ++ rest)) =
      (textBytes false >>= fun _ => return (containers, .colon) : Reader _).run (bytesOf (w ++ ['"']) ++ rest) := by
    rcases awaits with rfl | rfl <;> rfl
  rw [step, run_bind_of read]
  rfl

/-- Whether some characters are moved over, in whatever lists and objects they are. What stands between brackets
is moved over with the bracket at its end. -/
def IsSkipped : Part → List Char → Prop
  | .value, w => ∀ b containers expected, AreBlank b → AwaitsValue expected →
      Goes skipStep EndsNumber (bytesOf (b ++ w)) (containers, expected) (containers, .separator)
  | .elements, w => ∀ containers expected, AwaitsValue expected →
      Goes skipStep Anything (bytesOf (w ++ [']'])) (.list :: containers, expected) (containers, .separator)
  | .members, w => ∀ containers expected, AwaitsName expected →
      Goes skipStep Anything (bytesOf (w ++ ['\x7d'])) (.object :: containers, expected) (containers, .separator)

theorem AwaitsValue.ne (awaits : AwaitsValue expected) : expected ≠ .separator := by
  rcases awaits with rfl | rfl <;> decide

theorem AwaitsName.ne (awaits : AwaitsName expected) : expected ≠ .separator := by
  rcases awaits with rfl | rfl <;> decide

/-- Whether a value may begin with a character. -/
def BeginsValue (c : Char) : Prop := IsMark c ∧ byte c ≠ byte ']'

instance (c : Char) : Decidable (BeginsValue c) := inferInstanceAs (Decidable (_ ∧ _))

theorem goes_value {P : List UInt8 → Prop} (awaits : AwaitsValue expected) (blank : AreBlank b)
    (begins : BeginsValue c)
    (value : ∀ rest, P rest → (skipFrom (byte c) containers).run (bytesOf w ++ rest) = .ok (next, rest)) :
    Goes skipStep P (bytesOf (b ++ c :: w)) (containers, expected) next := by
  refine goes_part (Or.inr awaits.ne) blank begins.1 fun rest follows => ?_
  rw [run_skipPart_value awaits begins.1 begins.2, value rest follows]

theorem isSkipped_scalar (begins : BeginsValue c)
    (value : ∀ (containers : List Container) (rest : List UInt8), EndsNumber rest →
      (skipFrom (byte c) containers).run (bytesOf w ++ rest) = .ok ((containers, .separator), rest)) :
    IsSkipped .value (c :: w) :=
  fun _ containers _ blank awaits => goes_value awaits blank begins (value containers)

theorem isSkipped_word (isWord : w ∈ ["null".toList, "true".toList, "false".toList]) : IsSkipped .value w := by
  simp only [List.mem_cons, List.not_mem_nil, or_false] at isWord
  rcases isWord with rfl | rfl | rfl
  · exact isSkipped_scalar (c := 'n') (w := "ull".toList) (by decide) fun _ _ _ => rfl
  · exact isSkipped_scalar (c := 't') (w := "rue".toList) (by decide) fun _ _ _ => rfl
  · exact isSkipped_scalar (c := 'f') (w := "alse".toList) (by decide) fun _ _ _ => rfl

theorem isSkipped_text (isText : IsText w) : IsSkipped .value ('"' :: (w ++ ['"'])) := by
  refine isSkipped_scalar (by decide) fun containers rest _ => ?_
  obtain ⟨value, read⟩ := run_textBytes_of_isText isText rest
  have step : (skipFrom (byte '"') containers).run (bytesOf (w ++ ['"']) ++ rest) =
      (textBytes false >>= fun _ => return (containers, .separator) : Reader _).run (bytesOf (w ++ ['"']) ++ rest) :=
        rfl
  rw [step, run_bind_of read]
  rfl

theorem isSkipped_number (isNumber : IsNumber w) : IsSkipped .value w := by
  obtain @⟨sign, whole, fraction, exponent, isSign, are, noZero, isFraction, isExponent⟩ := isNumber
  have read (rest : List UInt8) (ends : EndsNumber rest) :=
    run_number .malformed are noZero isFraction isExponent ends
  simp only [List.mem_cons, List.not_mem_nil, or_false] at isSign
  rcases isSign with rfl | rfl
  · obtain ⟨d, ds, rfl⟩ := List.exists_cons_of_ne_nil are.1
    have each : ∀ d ∈ "0123456789".toList, BeginsValue d ∧ byte d ≠ byte '[' ∧ byte d ≠ byte '\x7b' ∧
      byte d ≠ byte '"' ∧
        byte d ≠ byte '-' ∧ isDigit (byte d) = true := forall_mem (by decide)
    obtain ⟨begins, noList, noObject, noText, noSign, isDigit⟩ := each d (are.2 d List.mem_cons_self)
    refine isSkipped_scalar begins fun containers rest ends => ?_
    obtain ⟨n, read⟩ := read rest ends
    have step : (modify (byte d :: ·) >>= fun _ => number .malformed >>= fun _ =>
          return (containers, .separator) : Reader (List Container × Expected)).run
            (bytesOf (ds ++ (fraction ++ exponent)) ++ rest) =
        (number .malformed >>= fun _ => return (containers, .separator) : Reader (List Container × Expected)).run
          (bytesOf (d :: ds ++ (fraction ++ exponent)) ++ rest) := by
      rw [List.cons_append, bytesOf_ascii begins.1.1]
      rfl
    rw [skipFrom, if_neg noList, if_neg noObject, if_neg noText, if_neg noSign, if_pos isDigit]
    exact step.trans (run_bind_of read)
  · refine isSkipped_scalar (by decide) fun containers rest ends => ?_
    obtain ⟨n, read⟩ := read rest ends
    have step : (skipFrom (byte '-') containers).run (bytesOf (whole ++ (fraction ++ exponent)) ++ rest) =
        (number .malformed >>= fun _ => return (containers, .separator) : Reader (List Container × Expected)).run
          (bytesOf (whole ++ (fraction ++ exponent)) ++ rest) := rfl
    exact step.trans (run_bind_of read)

/-- A mark that does not begin a value is moved over by itself. -/
theorem goes_mark (inside : containers ≠ [] ∨ expected ≠ .separator) (blank : AreBlank b) (isMark : IsMark c)
    (part : ∀ rest, (skipPart containers expected).run (byte c :: rest) = .ok (next, rest)) :
    Goes skipStep Anything (bytesOf (b ++ [c])) (containers, expected) next :=
  goes_part inside blank isMark fun rest _ => part rest

theorem goes_listStart (awaits : AwaitsValue expected) (blank : AreBlank b) :
    Goes skipStep Anything (bytesOf (b ++ ['['])) (containers, expected) (.list :: containers, .elementOrEnd) :=
  goes_value awaits blank (by decide) fun _ _ => rfl

theorem goes_objectStart (awaits : AwaitsValue expected) (blank : AreBlank b) :
    Goes skipStep Anything (bytesOf (b ++ ['\x7b'])) (containers, expected) (.object :: containers, .keyOrEnd) :=
  goes_value awaits blank (by decide) fun _ _ => rfl

/-- A list or an object is moved over if what stands between its brackets is. -/
theorem isSkipped_between {container : Container} {first : Expected}
    (start : ∀ b containers expected, AreBlank b → AwaitsValue expected →
      Goes skipStep Anything (bytesOf (b ++ [c])) (containers, expected) (container :: containers, first))
    (inside : ∀ containers, Goes skipStep Anything (bytesOf w) (container :: containers, first)
      (containers, .separator)) :
    IsSkipped .value (c :: w) := by
  intro b containers expected blank awaits
  rw [List.append_cons]
  exact ((start b containers expected blank awaits).chars (inside containers) fun _ _ => trivial).mono fun _ _ =>
    trivial

theorem endsNumber_of_blank (blank : AreBlank b) (isEnd : c ∈ [',', ']', '\x7d']) (rest : List UInt8) :
    EndsNumber (bytesOf (b ++ c :: w) ++ rest) := by
  have each : ∀ c ∈ [' ', '\n', '\t', '\r', ',', ']', '\x7d'], c.toNat < 128 ∧ isDigit (byte c) = false ∧
      byte c ∉ ['.', 'e', 'E'].map byte := forall_mem (by decide)
  have head : ∃ d cs, b ++ c :: w = d :: cs ∧ d ∈ [' ', '\n', '\t', '\r', ',', ']', '\x7d'] := by
    cases b with
    | nil => exact ⟨c, w, rfl, List.mem_append_right [' ', '\n', '\t', '\r'] isEnd⟩
    | cons d b => exact ⟨d, b ++ c :: w, rfl, List.mem_append_left [',', ']', '\x7d'] (blank d List.mem_cons_self)⟩
  obtain ⟨d, cs, eq, member⟩ := head
  rw [eq, bytesOf_ascii (each d member).1]
  rintro x ⟨⟩
  exact (each d member).2

/-- The name of a member is moved over with the colon behind it. -/
theorem goes_name {k b' : List Char} (awaits : AwaitsName expected) (before : AreBlank b) (key : IsText k)
    (between : AreBlank b') :
    Goes skipStep Anything (bytesOf (b ++ '"' :: (k ++ '"' :: (b' ++ [':'])))) (containers, expected)
        (containers, .value) := by
  have name : Goes skipStep Anything (bytesOf (b ++ '"' :: (k ++ ['"']))) (containers, expected)
      (containers, .colon) :=
    goes_part (Or.inr awaits.ne) before (by decide) fun rest _ => run_skipPart_name awaits key rest
  have colon : Goes skipStep Anything (bytesOf (b' ++ [':'])) (containers, .colon) (containers, .value) :=
    goes_mark (Or.inr (by decide)) between (by decide) fun _ => rfl
  have split : b ++ '"' :: (k ++ '"' :: (b' ++ [':'])) = (b ++ '"' :: (k ++ ['"'])) ++ (b' ++ [':']) := by
    simp only [List.append_assoc, List.cons_append, List.nil_append]
  rw [split]
  exact name.chars colon fun _ _ => trivial

/-- A value is moved over with the mark behind it. -/
theorem goes_valueAndMark {v b' : List Char} (isSkipped : IsSkipped .value v) (before : AreBlank b)
    (awaits : AwaitsValue expected)
    (behind : AreBlank b') (isEnd : c ∈ [',', ']', '\x7d'])
    (mark : ∀ rest, (skipPart containers .separator).run (byte c :: rest) = .ok (next, rest))
    (inside : containers ≠ []) :
    Goes skipStep Anything (bytesOf (b ++ (v ++ (b' ++ [c])))) (containers, expected) next := by
  have isMark : ∀ c ∈ [',', ']', '\x7d'], IsMark c := forall_mem (by decide)
  rw [← List.append_assoc]
  exact (isSkipped b containers expected before awaits).chars (goes_mark (Or.inl inside) behind (isMark c isEnd) mark)
    fun rest _ => endsNumber_of_blank behind isEnd rest

/-- What has the form of a value is moved over. -/
theorem isSkipped_of_isFormed {part : Part} (isFormed : IsFormed part w) : IsSkipped part w := by
  induction isFormed with
  | word isWord => exact isSkipped_word isWord
  | number isNumber => exact isSkipped_number isNumber
  | text isText => exact isSkipped_text isText
  | emptyList inside =>
    exact isSkipped_between (fun _ _ _ blank awaits => goes_listStart awaits blank) fun _ =>
      goes_mark (Or.inl (List.cons_ne_nil _ _)) inside (by decide) fun _ => rfl
  | list _ ih =>
    exact isSkipped_between (fun _ _ _ blank awaits => goes_listStart awaits blank) fun containers =>
      ih containers .elementOrEnd (Or.inr rfl)
  | emptyObject inside =>
    exact isSkipped_between (fun _ _ _ blank awaits => goes_objectStart awaits blank) fun _ =>
      goes_mark (Or.inl (List.cons_ne_nil _ _)) inside (by decide) fun _ => rfl
  | object _ ih =>
    exact isSkipped_between (fun _ _ _ blank awaits => goes_objectStart awaits blank) fun containers =>
      ih containers .keyOrEnd (Or.inr rfl)
  | lastElement before _ behind ih =>
    intro containers expected awaits
    rw [List.append_assoc, List.append_assoc]
    exact goes_valueAndMark ih before awaits behind (by decide) (fun _ => rfl) (List.cons_ne_nil _ _)
  | @nextElement b v b' ws before _ behind _ ih others =>
    intro containers expected awaits
    have split : b ++ (v ++ (b' ++ ',' :: ws)) ++ [']'] = (b ++ (v ++ (b' ++ [',']))) ++ (ws ++ [']']) := by
      simp only [List.append_assoc, List.cons_append, List.nil_append]
    have element : Goes skipStep Anything (bytesOf (b ++ (v ++ (b' ++ [','])))) (.list :: containers, expected)
        (.list :: containers, .value) :=
      goes_valueAndMark ih before awaits behind (by decide) (fun _ => rfl) (List.cons_ne_nil _ _)
    rw [split]
    exact element.chars (others containers .value (Or.inl rfl)) fun _ _ => trivial
  | @lastMember b k b' b'' v e before key between between' _ behind ih =>
    intro containers expected awaits
    have split : b ++ '"' :: (k ++ '"' :: (b' ++ ':' :: (b'' ++ (v ++ e)))) ++ ['\x7d'] =
        (b ++ '"' :: (k ++ '"' :: (b' ++ [':']))) ++ (b'' ++ (v ++ (e ++ ['\x7d']))) := by
      simp only [List.append_assoc, List.cons_append, List.nil_append]
    rw [split]
    exact (goes_name awaits before key between).chars
      (goes_valueAndMark ih between' (Or.inl rfl) behind (by decide) (fun _ => rfl) (List.cons_ne_nil _ _)) fun _ _ =>
        trivial
  | @nextMember b k b' b'' v e ws before key between between' _ behind _ ih others =>
    intro containers expected awaits
    have split : b ++ '"' :: (k ++ '"' :: (b' ++ ':' :: (b'' ++ (v ++ (e ++ ',' :: ws))))) ++ ['\x7d'] =
        (b ++ '"' :: (k ++ '"' :: (b' ++ [':']))) ++ ((b'' ++ (v ++ (e ++ [',']))) ++ (ws ++ ['\x7d'])) := by
      simp only [List.append_assoc, List.cons_append, List.nil_append]
    have value : Goes skipStep Anything (bytesOf (b'' ++ (v ++ (e ++ [','])))) (.object :: containers, .value)
        (.object :: containers, .key) :=
      goes_valueAndMark ih between' (Or.inl rfl) behind (by decide) (fun _ => rfl) (List.cons_ne_nil _ _)
    rw [split]
    exact (goes_name awaits before key between).chars
      (value.chars (others containers .key (Or.inl rfl)) fun _ _ => trivial)
      fun _ _ => trivial

/-- A value that nobody needs is moved over, and nothing of what follows it. -/
theorem run_skip (isFormed : IsFormed .value w) (blank : AreBlank b) (ends : EndsNumber rest) :
    skip.run (bytesOf (b ++ w) ++ rest) = .ok ((), rest) := by
  have goes := isSkipped_of_isFormed isFormed b [] .value blank (Or.inl rfl)
  have atEnd : (skipStep ([], .separator)).run rest = .ok (none, rest) := rfl
  rw [skip_eq, run_bind_of (goes.run_iterate ends atEnd)]
  rfl

end Reader

end ModuleBundler.Json
