import ModuleBundler.Json.Reader
import ModuleBundler.Proofs.Json.Written
import ModuleBundler.Proofs.Script.Lines

namespace ModuleBundler.Json

/-- The bytes of a text. -/
def bytesOf (cs : List Char) : List UInt8 := cs.flatMap String.utf8EncodeChar

theorem bytesOf_cons (c : Char) (cs : List Char) : bytesOf (c :: cs) = String.utf8EncodeChar c ++ bytesOf cs :=
  List.flatMap_cons

theorem bytesOf_append (front back : List Char) : bytesOf (front ++ back) = bytesOf front ++ bytesOf back :=
  List.flatMap_append

theorem toList_toUTF8 (text : String) : text.toUTF8.data.toList = bytesOf text.toList := by
  have whole : text.toUTF8 = (bytesOf text.toList).toByteArray := by
    rw [← String.ofList_toList (s := text), String.toList_ofList]
    exact String.toByteArray_ofList
  rw [whole, List.toList_data_toByteArray]

/-- Whether a byte stands for itself in a quoted text. -/
structure IsPlainByte (b : UInt8) : Prop where
  noQuote : b ≠ byte '"'
  noEscape : b ≠ byte '\\'
  noControl : ¬b < 0x20

theorem utf8EncodeChar_ascii {c : Char} (ascii : c.toNat < 128) : String.utf8EncodeChar c = [byte c] := by
  rw [String.utf8EncodeChar, if_pos (show c.val.toNat ≤ 127 from Nat.le_of_lt_succ ascii)]
  rfl

theorem bytesOf_ascii {c : Char} (ascii : c.toNat < 128) (cs : List Char) :
    bytesOf (c :: cs) = byte c :: bytesOf cs := by
  rw [bytesOf_cons, utf8EncodeChar_ascii ascii, List.singleton_append]

theorem isPlainByte_of_le {b : UInt8} (high : 128 ≤ b.toNat) : IsPlainByte b := by
  refine ⟨?_, ?_, fun control => ?_⟩
  · rintro rfl
    exact absurd high (by decide)
  · rintro rfl
    exact absurd high (by decide)
  · have := UInt8.lt_iff_toNat_lt.mp control
    simp only [UInt8.reduceToNat] at this
    omega

/-- Each byte of a character beyond ASCII is beyond ASCII. -/
theorem le_of_mem_utf8EncodeChar {c : Char} (beyond : 128 ≤ c.toNat) {b : UInt8}
    (member : b ∈ String.utf8EncodeChar c) :
    128 ≤ b.toNat := by
  rw [String.utf8EncodeChar, if_neg (show ¬c.val.toNat ≤ 127 from Nat.not_le.mpr beyond)] at member
  split at member
  · simp only [List.mem_cons, List.not_mem_nil, or_false] at member
    rcases member with rfl | rfl <;> simp only [UInt8.toNat_ofNat'] <;> omega
  · split at member
    · simp only [List.mem_cons, List.not_mem_nil, or_false] at member
      rcases member with rfl | rfl | rfl <;> simp only [UInt8.toNat_ofNat'] <;> omega
    · simp only [List.mem_cons, List.not_mem_nil, or_false] at member
      rcases member with rfl | rfl | rfl | rfl <;> simp only [UInt8.toNat_ofNat'] <;> omega

/-- The bytes of a character that is not escaped stand for themselves. -/
theorem isPlainByte_of_mem {c : Char} (noQuote : c ≠ '"') (noEscape : c ≠ '\\') (noControl : 32 ≤ c.toNat) {b : UInt8}
    (member : b ∈ String.utf8EncodeChar c) : IsPlainByte b := by
  by_cases beyond : 128 ≤ c.toNat
  · exact isPlainByte_of_le (le_of_mem_utf8EncodeChar beyond member)
  · have ascii : c.toNat < 128 := by omega
    rw [utf8EncodeChar_ascii ascii, List.mem_singleton] at member
    have value : b.toNat = c.toNat := by
      rw [member, byte, Nat.toUInt8, UInt8.toNat_ofNat']
      omega
    refine ⟨fun same => noQuote ?_, fun same => noEscape ?_, fun control => ?_⟩
    · rw [same] at value
      exact Char.ext (UInt32.toNat_inj.mp value.symm)
    · rw [same] at value
      exact Char.ext (UInt32.toNat_inj.mp value.symm)
    · have := UInt8.lt_iff_toNat_lt.mp control
      simp only [UInt8.reduceToNat] at this
      omega

namespace Reader

variable {α : Type} {step : α → Reader (Option α)} {a next : α} {n value lead trail : Nat}
  {bytes rest read decoded : List UInt8} {needed : Bool} {w cs digits digits' : List Char} {c : Char}

theorem run_bind_of {β : Type} {reader : Reader α} {f : α → Reader β} (reads : reader.run bytes = .ok (a, rest)) :
    (reader >>= f).run bytes = (f a).run rest := by
  rw [StateT.run_bind, reads]
  rfl

theorem run_take_bind {β : Type} {atEnd : Problem} (b : UInt8) (f : UInt8 → Reader β) :
    (take atEnd >>= f).run (b :: rest) = (f b).run rest := rfl

theorem run_roundsOf_some (goesOn : (step a).run bytes = .ok (some next, rest)) :
    (roundsOf step (n + 1) a).run bytes = (roundsOf step n next).run rest := by
  rw [roundsOf, run_bind_of goesOn]

theorem run_roundsOf_none (ends : (step a).run bytes = .ok (none, rest)) :
    (roundsOf step (n + 1) a).run bytes = .ok (a, rest) := by
  rw [roundsOf, run_bind_of ends]
  rfl

/-- Whether a loop comes from one value to another over some bytes, if what follows them is as `P` says. It takes
no more rounds than there are bytes. -/
def Goes (step : α → Reader (Option α)) (P : List UInt8 → Prop) (bytes : List UInt8) (a b : α) : Prop :=
  ∃ k ≤ bytes.length, ∀ n rest, P rest → (roundsOf step (k + n) a).run (bytes ++ rest) = (roundsOf step n b).run rest

def Anything (_ : List UInt8) : Prop := True

theorem goes_nil {P : List UInt8 → Prop} : Goes step P [] a a :=
  ⟨0, Nat.le_refl 0, fun n rest _ => by rw [Nat.zero_add, List.nil_append]⟩

theorem goes_round {P : List UInt8 → Prop} (some_ : bytes ≠ [])
    (round : ∀ rest, P rest → (step a).run (bytes ++ rest) = .ok (some next, rest)) : Goes step P bytes a next := by
  refine ⟨1, List.length_pos_iff.mpr some_, fun n rest follows => ?_⟩
  rw [Nat.add_comm, run_roundsOf_some (round rest follows)]

theorem Goes.append {P Q : List UInt8 → Prop} {front back : List UInt8} {b : α} (first : Goes step P front a next)
    (second : Goes step Q back next b) (between : ∀ rest, Q rest → P (back ++ rest)) :
        Goes step Q (front ++ back) a b := by
  obtain ⟨k, few, onward⟩ := first
  obtain ⟨k', few', onward'⟩ := second
  refine ⟨k + k', by rw [List.length_append]; omega, fun n rest follows => ?_⟩
  rw [Nat.add_assoc, List.append_assoc, onward _ _ (between rest follows), onward' _ _ follows]

theorem Goes.chars {P Q : List UInt8 → Prop} {front back : List Char} {b : α}
    (first : Goes step P (bytesOf front) a next)
    (second : Goes step Q (bytesOf back) next b) (between : ∀ rest, Q rest → P (bytesOf back ++ rest)) :
    Goes step Q (bytesOf (front ++ back)) a b := by
  rw [bytesOf_append]
  exact first.append second between

theorem Goes.mono {P Q : List UInt8 → Prop} {b : α} (goes : Goes step P bytes a b)
    (weaker : ∀ rest, Q rest → P rest) :
    Goes step Q bytes a b := by
  obtain ⟨k, few, onward⟩ := goes
  exact ⟨k, few, fun n rest follows => onward n rest (weaker rest follows)⟩

/-- A round in which the loop ends is always left. -/
theorem Goes.run_iterate {P : List UInt8 → Prop} {behind : List UInt8}
    (goes : Goes step P bytes a next) (follows : P rest)
    (ends : (step next).run rest = .ok (none, behind)) :
    (iterate a step).run (bytes ++ rest) = .ok (next, behind) := by
  obtain ⟨k, few, onward⟩ := goes
  obtain ⟨n, enough⟩ : ∃ n, (bytes ++ rest).length + 1 = k + (n + 1) := ⟨(bytes ++ rest).length - k, by simp; omega⟩
  have rounds : (iterate a step).run (bytes ++ rest) = (roundsOf step ((bytes ++ rest).length + 1) a).run
    (bytes ++ rest) := rfl
  rw [rounds, enough, onward _ _ follows, run_roundsOf_none ends]

/-- One round of `textBytes`: what has been read, the last byte first, and whether the text is over. -/
def textStep (needed : Bool) : List UInt8 × Bool → Reader (Option (List UInt8 × Bool)) := fun (read, closed) => do
  if closed then return none
  let b ← take .cutOff
  if b = byte '"' then return some (read, true)
  else if b = byte '\\' then return some ((← escape needed).reverse ++ read, false)
  else if b < 0x20 then throw .malformed
  else return some (b :: read, false)

theorem textBytes_eq (needed : Bool) : textBytes needed = do
    let (read, _) ← iterate (([] : List UInt8), false) (textStep needed)
    return read := rfl

theorem run_textStep_closed : (textStep needed (read, true)).run rest = .ok (none, rest) := rfl

theorem run_textStep_quote : (textStep needed (read, false)).run (byte '"' :: rest) = .ok (some (read, true), rest) :=
    rfl

theorem run_textStep_plain {b : UInt8} (isPlain : IsPlainByte b) :
    (textStep needed (read, false)).run (b :: rest) = .ok (some (b :: read, false), rest) := by
  have step : (textStep needed (read, false)).run (b :: rest) =
      (if b = byte '"' then pure (some (read, true))
        else if b = byte '\\' then do return some ((← escape needed).reverse ++ read, false)
        else if b < 0x20 then throw .malformed
        else pure (some (b :: read, false)) : Reader _).run rest := rfl
  rw [step, if_neg isPlain.noQuote, if_neg isPlain.noEscape, if_neg isPlain.noControl]
  rfl

theorem run_textStep_escape (escaped : (escape needed).run bytes = .ok (decoded, rest)) :
    (textStep needed (read, false)).run (byte '\\' :: bytes) = .ok (some (decoded.reverse ++ read, false), rest) := by
  have step : (textStep needed (read, false)).run (byte '\\' :: bytes) =
      (do return some ((← escape needed).reverse ++ read, false) : Reader _).run bytes := rfl
  rw [step, run_bind_of escaped]
  rfl

theorem hexValue?_of_isHexDigit (digit : IsHexDigit c n) : c.toNat < 128 ∧ hexValue? (byte c) = some n := by
  have each : ∀ n < 16, ((Text.hexDigit n).toNat < 128 ∧ hexValue? (byte (Text.hexDigit n)) = some n) ∧
      (Text.hexDigit n).toUpper.toNat < 128 ∧ hexValue? (byte (Text.hexDigit n).toUpper) = some n := by decide
  obtain ⟨small, rfl | rfl⟩ := digit
  · exact (each n small).1
  · exact (each n small).2

theorem run_unit {a b c d : UInt8} {w x y z : Nat} (rest : List UInt8) (first : hexValue? a = some w)
    (second : hexValue? b = some x)
    (third : hexValue? c = some y) (fourth : hexValue? d = some z) :
    unit.run (a :: b :: c :: d :: rest) = .ok (((w * 16 + x) * 16 + y) * 16 + z, rest) := by
  simp only [unit, run_take_bind, first, second, third, fourth]
  rfl

/-- A letter behind a backslash stands for one byte. -/
theorem run_escape_letter {letter value : UInt8} (noUnit : letter ≠ byte 'u')
    (short : shortEscape? letter = some value) :
    (escape needed).run (letter :: rest) = .ok ([value], rest) := by
  simp only [escape, run_take_bind, if_neg noUnit, short]
  rfl

theorem run_unit_of (isUnit : IsUnit digits value) (rest : List UInt8) :
    unit.run (bytesOf digits ++ rest) = .ok (value, rest) := by
  obtain ⟨first, second, third, fourth⟩ := isUnit
  obtain ⟨asciiA, first⟩ := hexValue?_of_isHexDigit first
  obtain ⟨asciiB, second⟩ := hexValue?_of_isHexDigit second
  obtain ⟨asciiC, third⟩ := hexValue?_of_isHexDigit third
  obtain ⟨asciiD, fourth⟩ := hexValue?_of_isHexDigit fourth
  rw [bytesOf_ascii asciiA, bytesOf_ascii asciiB, bytesOf_ascii asciiC, bytesOf_ascii asciiD]
  exact run_unit rest first second third fourth

/-- What a text that is needed reads behind a backslash and `u`. -/
theorem run_escape_u (isUnit : IsUnit digits value) (rest : List UInt8) :
    (escape true).run (byte 'u' :: (bytesOf digits ++ rest)) =
      (if 0xdc00 ≤ value && value ≤ 0xdfff then throw .malformed
        else if 0xd800 ≤ value && value ≤ 0xdbff then return String.utf8EncodeChar (← pairedWith value)
        else return String.utf8EncodeChar (Char.ofNat value) : Reader (List UInt8)).run rest := by
  have step : (escape true).run (byte 'u' :: (bytesOf digits ++ rest)) = (do
        let first ← unit
        if 0xdc00 ≤ first && first ≤ 0xdfff then throw .malformed
        else if 0xd800 ≤ first && first ≤ 0xdbff then return String.utf8EncodeChar (← pairedWith first)
        else return String.utf8EncodeChar (Char.ofNat first) : Reader _).run (bytesOf digits ++ rest) := rfl
  rw [step, run_bind_of (run_unit_of isUnit rest)]

/-- No character has the number of one half of a pair. -/
theorem run_escape_unit (isUnit : IsUnit digits c.toNat) (rest : List UInt8) :
    (escape true).run (byte 'u' :: (bytesOf digits ++ rest)) = .ok (String.utf8EncodeChar c, rest) := by
  have valid : c.toNat < 0xd800 ∨ 0xdfff < c.toNat ∧ c.toNat < 0x110000 := c.valid
  have noTrail : ¬(0xdc00 ≤ c.toNat && c.toNat ≤ 0xdfff) = true := by
    simp only [Bool.and_eq_true, decide_eq_true_eq]
    omega
  have noLead : ¬(0xd800 ≤ c.toNat && c.toNat ≤ 0xdbff) = true := by
    simp only [Bool.and_eq_true, decide_eq_true_eq]
    omega
  rw [run_escape_u isUnit, if_neg noTrail, if_neg noLead, Char.ofNat_toNat]
  rfl

theorem run_pairedWith (isUnit : IsUnit digits trail) (isTrail : 0xdc00 ≤ trail ∧ trail ≤ 0xdfff)
    (isChar : c.toNat = 0x10000 + (lead - 0xd800) * 0x400 + (trail - 0xdc00)) (rest : List UInt8) :
    (pairedWith lead).run (byte '\\' :: byte 'u' :: (bytesOf digits ++ rest)) = .ok (c, rest) := by
  have step : (pairedWith lead).run (byte '\\' :: byte 'u' :: (bytesOf digits ++ rest)) = (do
        let trail ← unit
        if 0xdc00 ≤ trail && trail ≤ 0xdfff then
          return Char.ofNat (0x10000 + (lead - 0xd800) * 0x400 + (trail - 0xdc00))
        else throw .malformed : Reader _).run (bytesOf digits ++ rest) := rfl
  rw [step, run_bind_of (run_unit_of isUnit rest), if_pos (by simp [isTrail]), ← isChar, Char.ofNat_toNat]
  rfl

theorem run_escape_pair (first : IsUnit digits lead) (second : IsUnit digits' trail)
    (isLead : 0xd800 ≤ lead ∧ lead ≤ 0xdbff)
    (isTrail : 0xdc00 ≤ trail ∧ trail ≤ 0xdfff)
    (isChar : c.toNat = 0x10000 + (lead - 0xd800) * 0x400 + (trail - 0xdc00))
    (rest : List UInt8) :
    (escape true).run (byte 'u' :: (bytesOf digits ++ byte '\\' :: byte 'u' :: (bytesOf digits' ++ rest))) =
      .ok (String.utf8EncodeChar c, rest) := by
  have noTrail : ¬(0xdc00 ≤ lead && lead ≤ 0xdfff) = true := by
    simp only [Bool.and_eq_true, decide_eq_true_eq]
    omega
  rw [run_escape_u first, if_neg noTrail, if_pos (by simp [isLead]),
    run_bind_of (run_pairedWith second isTrail isChar rest)]
  rfl

/-- Whether bytes inside of a quoted text are read as some others. -/
def ReadsAs (needed : Bool) (bytes value : List UInt8) : Prop :=
  ∀ read, Goes (textStep needed) Anything bytes (read, false) (value.reverse ++ read, false)

theorem readsAs_nil : ReadsAs needed [] [] := fun _ => goes_nil

theorem ReadsAs.append {front back value value' : List UInt8} (first : ReadsAs needed front value)
    (second : ReadsAs needed back value') : ReadsAs needed (front ++ back) (value ++ value') := by
  intro read
  rw [List.reverse_append, List.append_assoc]
  exact (first read).append (second (value.reverse ++ read)) fun _ _ => trivial

/-- Bytes that stand for themselves are read as they are. -/
theorem readsAs_plain (plain : ∀ b ∈ bytes, IsPlainByte b) : ReadsAs needed bytes bytes := by
  induction bytes with
  | nil => exact readsAs_nil
  | cons b bytes ih =>
    have first : ReadsAs needed [b] [b] := fun read =>
      goes_round (List.cons_ne_nil _ _) fun rest _ => run_textStep_plain (plain b List.mem_cons_self)
    exact first.append (ih fun b member => plain b (List.mem_cons_of_mem _ member))

theorem readsAs_escape (escaped : ∀ rest, (escape needed).run (bytes ++ rest) = .ok (decoded, rest)) :
    ReadsAs needed (byte '\\' :: bytes) decoded :=
  fun _ => goes_round (List.cons_ne_nil _ _) fun rest _ => run_textStep_escape (escaped rest)

theorem readsAs_letter {letter : Char} (escape : (letter, c) ∈ letters) :
    ReadsAs needed (bytesOf ['\\', letter]) (String.utf8EncodeChar c) := by
  have each : ∀ escape ∈ letters, bytesOf ['\\', escape.1] = [byte '\\', byte escape.1] ∧
      String.utf8EncodeChar escape.2 = [byte escape.2] ∧ byte escape.1 ≠ byte 'u' ∧
      shortEscape? (byte escape.1) = some (byte escape.2) := by decide
  obtain ⟨bytes, value, noUnit, short⟩ := each _ escape
  rw [bytes, value]
  exact readsAs_escape fun rest => run_escape_letter noUnit short

/-- However a character is written, it is read as the character. -/
theorem readsAs_of_charAs (written : CharAs w c) : ReadsAs true (bytesOf w) (String.utf8EncodeChar c) := by
  cases written with
  | plain noQuote noEscape visible =>
    rw [bytesOf, List.flatMap_singleton]
    exact readsAs_plain fun b member => isPlainByte_of_mem noQuote noEscape visible member
  | letter escape => exact readsAs_letter escape
  | unit isUnit =>
    rw [bytesOf_ascii (by decide), bytesOf_ascii (by decide)]
    exact readsAs_escape fun rest => run_escape_unit isUnit rest
  | pair first second isLead isTrail isChar =>
    rw [bytesOf_ascii (by decide), bytesOf_ascii (by decide), bytesOf_append, bytesOf_ascii (by decide),
      bytesOf_ascii (by decide)]
    refine readsAs_escape fun rest => ?_
    rw [List.cons_append, List.append_assoc]
    exact run_escape_pair first second isLead isTrail isChar rest

theorem readsAs_of_textAs (written : TextAs w cs) : ReadsAs true (bytesOf w) (bytesOf cs) := by
  induction written with
  | nil => exact readsAs_nil
  | cons first _ ih =>
    rw [bytesOf_append, bytesOf_cons]
    exact (readsAs_of_charAs first).append ih

/-- What is read as something else goes up to the quote at the end. -/
theorem run_textBytes {value : List UInt8} (reads : ReadsAs needed bytes value) :
    (textBytes needed).run (bytes ++ byte '"' :: rest) = .ok (value.reverse, rest) := by
  have quote : Goes (textStep needed) Anything [byte '"'] (value.reverse ++ [], false) (value.reverse ++ [], true) :=
    goes_round (List.cons_ne_nil _ _) fun rest _ => run_textStep_quote
  have rounds := ((reads []).append quote fun _ _ => trivial).run_iterate
    (show Anything rest from trivial) run_textStep_closed
  rw [List.append_assoc, List.append_nil] at rounds
  rw [textBytes_eq, ← List.singleton_append, run_bind_of rounds]
  rfl

/-- However a text is written, it is read as the text. -/
theorem run_textAfterQuote {content : String} (written : TextAs w content.toList) (rest : List UInt8) :
    textAfterQuote.run (bytesOf w ++ byte '"' :: rest) = .ok (content, rest) := by
  have decoded : String.fromUTF8? ⟨(bytesOf content.toList).reverse.reverse.toArray⟩ = some content := by
    have bytes : (⟨(bytesOf content.toList).reverse.reverse.toArray⟩ : ByteArray) = content.toUTF8 := by
      rw [List.reverse_reverse, ← toList_toUTF8]
    rw [bytes]
    exact dif_pos content.isValidUTF8
  rw [textAfterQuote, run_bind_of (run_textBytes (readsAs_of_textAs written)), decoded]
  rfl

/-- A quoted text is read as the text, and nothing of what follows it. -/
theorem run_text_quote (content : String) (rest : List UInt8) :
    text.run (bytesOf (Text.quote content.toList) ++ rest) = .ok (content, rest) := by
  have whole : bytesOf (Text.quote content.toList) ++ rest =
      byte '"' :: (bytesOf (content.toList.flatMap Text.quoteChar) ++ byte '"' :: rest) := by
    rw [Text.quote, ← List.singleton_append, bytesOf_append, bytesOf_append, List.append_assoc, List.append_assoc]
    rfl
  have step : text.run (byte '"' :: (bytesOf (content.toList.flatMap Text.quoteChar) ++ byte '"' :: rest)) =
      textAfterQuote.run (bytesOf (content.toList.flatMap Text.quoteChar) ++ byte '"' :: rest) := rfl
  rw [whole, step, run_textAfterQuote (textAs_quoted content.toList)]

end Reader

/-- A place of a quoted text is in the line that the text begins in. -/
theorem inLine_quote {content front back : List Char} {start k : Nat}
    (line : Script.Module.InLine (front ++ Text.quote content ++ back) start front.length)
    (inside : k ≤ (Text.quote content).length) :
    Script.Module.InLine (front ++ Text.quote content ++ back) start (front.length + k) := by
  refine ⟨Nat.le_add_right_of_le line.le, line.begins, fun place lower upper newline => ?_⟩
  rcases Nat.lt_or_ge place front.length with before | behind
  · exact line.goesOn place lower before newline
  · rw [List.append_assoc, List.getElem?_append_right behind, List.getElem?_append_left (by omega)] at newline
    exact absurd (Text.le_of_mem_quote (List.mem_of_getElem? newline)) (by decide)

/-- A quoted text is read as JSON as the text. It holds no control character and between its ends no quote that is not
escaped, so different texts are quoted differently and a quoted text takes one line wherever it stands. -/
theorem quoted_is_undone :
    (∀ content : String,
      Reader.whole Reader.text (String.ofList (Text.quote content.toList)).toUTF8.data.toList = .ok content ∧
        (∀ c ∈ Text.quote content.toList, 0x20 ≤ c.toNat) ∧
        (∃ inner, Text.quote content.toList = '"' :: (inner ++ ['"']) ∧
          ∀ i, inner[i]? = some '"' → Text.backslashesAtEnd (inner.take i) % 2 = 1) ∧
        ∀ front back start, Script.Module.InLine (front ++ Text.quote content.toList ++ back) start front.length →
          ∀ k ≤ (Text.quote content.toList).length,
            Script.Module.InLine (front ++ Text.quote content.toList ++ back) start (front.length + k)) ∧
      ∀ content other : String, Text.quote content.toList = Text.quote other.toList → content = other := by
  have undone (content : String) :
      Reader.whole Reader.text (String.ofList (Text.quote content.toList)).toUTF8.data.toList = .ok content := by
    have read := Reader.run_text_quote content []
    rw [toList_toUTF8, String.toList_ofList, Reader.whole, ← List.append_nil (bytesOf _), read]
    rfl
  refine ⟨fun content => ⟨undone content, fun c member => Text.le_of_mem_quote member, ?_, ?_⟩,
    fun content other same => ?_⟩
  · exact ⟨_, rfl, fun i here => Text.escaped_of_quoted content.toList here⟩
  · exact fun front back start line k inside => inLine_quote line inside
  · exact Except.ok.inj ((undone content).symm.trans (same ▸ undone other))

/-- A backslash before a quote, a control character and a character of several bytes. -/
theorem quoted_is_undone_mixed : Text.quote ['\\', '"', '\x01', 'é'] = "\"\\\\\\\"\\u0001é\"".toList ∧
    Reader.whole Reader.text "\"\\\\\\\"\\u0001é\"".toUTF8.data.toList = .ok "\\\"\x01é" := by
  have quoted : Text.quote "\\\"\x01é".toList = "\"\\\\\\\"\\u0001é\"".toList := by decide
  have undone := (quoted_is_undone.1 "\\\"\x01é").1
  rw [quoted, String.ofList_toList] at undone
  exact ⟨quoted, undone⟩

end ModuleBundler.Json
