import ModuleBundler.Proofs.Json.Skipping

namespace ModuleBundler.Json.Reader

variable {α : Type} {reader : Reader α} {a : α} {b w v : List Char} {s : String}

/-- Whether some characters are read as something, and nothing of what follows them. -/
def Reads (reader : Reader α) (cs : List Char) (a : α) : Prop :=
    ∀ rest, reader.run (bytesOf cs ++ rest) = .ok (a, rest)

theorem Reads.map {β : Type} (reads : Reads reader w a) (f : α → β) : Reads (f <$> reader) w (f a) := by
  intro rest
  rw [map_eq_pure_bind, run_bind_of (reads rest)]
  rfl

theorem reads_text (blank : AreBlank b) (written : TextAs w s.toList) : Reads text (b ++ '"' :: (w ++ ['"'])) s := by
  intro rest
  have step (bytes : List UInt8) :
    (if byte '"' = byte '"' then do let _ ← take .cutOff; textAfterQuote else refuse : Reader _).run
      (byte '"' :: bytes) = textAfterQuote.run bytes := rfl
  rw [bytesOf_append, bytesOf_ascii (by decide), bytesOf_append, List.append_assoc, List.cons_append,
    List.append_assoc, text, run_bind_of (run_peekPart blank (by decide) _), step]
  exact run_textAfterQuote written rest

theorem reads_text_of_holds (blank : AreBlank b) (holds : Holds (.text s) v) : Reads text (b ++ v) s := by
  cases holds with
  | text written => exact reads_text blank written

theorem reads_nothing_of_holds (blank : AreBlank b) (holds : Holds .null v) : Reads optionalText (b ++ v) none := by
  cases holds
  intro rest
  have bytes : bytesOf "null".toList = byte 'n' :: bytesOf ['u', 'l', 'l'] := rfl
  rw [bytesOf_append, List.append_assoc, bytes, List.cons_append, optionalText,
    run_bind_of (run_peekPart blank (by decide) _)]
  rfl

theorem reads_optionalText_of_holds (blank : AreBlank b) (holds : Holds (.text s) v) :
    Reads optionalText (b ++ v) (some s) := by
  cases holds with
  | @text _ w written =>
    intro rest
    have noNull (bytes : List UInt8) : (if byte '"' = byte 'n' then do
          let _ ← take .cutOff
          ['u', 'l', 'l'].forM expect
          return none
        else return some (← text) : Reader _).run bytes = (text >>= fun found => return some found :
          Reader _).run bytes := rfl
    have read : text.run (byte '"' :: (bytesOf (w ++ ['"']) ++ rest)) = .ok (s, rest) :=
      reads_text areBlank_nil written rest
    rw [bytesOf_append, bytesOf_ascii (by decide), List.append_assoc, List.cons_append, optionalText,
      run_bind_of (run_peekPart blank (by decide) _), noNull, run_bind_of read]
    rfl

/-- What is read with a part of a list or an object before the part itself: nothing before the first part, and the
comma before each other part. -/
inductive Leads : Bool → List Char → Prop
  | first : Leads true []
  | comma {b : List Char} (blank : AreBlank b) : Leads false (b ++ [','])

/-- Whether a loop reads things one behind the other, up to a mark at their end. `isFirst` says whether nothing
has been read yet, `next` what the loop comes to by reading something, and `Fits` what has to hold of what is
still to be read. -/
structure IsLoop {σ : Type} (step : σ → Reader (Option σ)) (isFirst : σ → Bool) (next : σ → α → σ)
    (Fits : σ → List α → Prop)
    (IsOne : α → List Char → Prop) (P : List UInt8 → Prop) (mark : Char) : Prop where
  one {state : σ} {a : α} {as : List α} {lead w : List Char} (fits : Fits state (a :: as)) (written : IsOne a w)
    (leads : Leads (isFirst state) lead) : Goes step P (bytesOf (lead ++ w)) state (next state a)
  others {state : σ} {a : α} {as : List α} (fits : Fits state (a :: as)) : Fits (next state a) as
  notFirst (state : σ) (a : α) : isFirst (next state a) = false
  behind {b : List Char} (blank : AreBlank b) {c : Char} (isEnd : c ∈ [',', mark]) (w : List Char)
    (rest : List UInt8) :
    P (bytesOf (b ++ c :: w) ++ rest)
  ends (state : σ) {b : List Char} (blank : AreBlank b) (rest : List UInt8) :
    (step state).run (bytesOf (b ++ [mark]) ++ rest) = .ok (none, byte mark :: rest)

namespace IsLoop

variable {σ : Type} {step : σ → Reader (Option σ)} {isFirst : σ → Bool} {next : σ → α → σ} {Fits : σ → List α → Prop}
  {IsOne : α → List Char → Prop} {P : List UInt8 → Prop} {mark : Char} {as : List α} {state : σ}

/-- The comma behind something is read with what follows it, so reading stops at the blanks behind the last thing. -/
theorem goes (isLoop : IsLoop step isFirst next Fits IsOne P mark) (written : AreSeparated IsOne as w) :
    ∀ state lead, Fits state as → Leads (isFirst state) lead → ∃ front behind, w = front ++ behind ∧ AreBlank behind ∧
      Goes step P (bytesOf (lead ++ front)) state (as.foldl next state) := by
  induction written with
  | @last a w b written behind =>
    intro state lead fits leads
    exact ⟨w, b, rfl, behind, isLoop.one fits written leads⟩
  | @next a as w b ws written behind _ ih =>
    intro state lead fits leads
    have leads' : Leads (isFirst (next state a)) (b ++ [',']) := isLoop.notFirst state a ▸ .comma behind
    obtain ⟨front, behind', rfl, blank, others⟩ := ih (next state a) (b ++ [',']) (isLoop.others fits) leads'
    refine ⟨w ++ (b ++ [','] ++ front), behind', ?_, blank, ?_⟩
    · simp only [List.append_assoc, List.cons_append, List.nil_append]
    · rw [← List.append_assoc lead]
      refine (isLoop.one fits written leads).chars others fun rest _ => ?_
      rw [← List.append_cons]
      exact isLoop.behind behind List.mem_cons_self front rest

/-- All things are read, up to the mark. -/
theorem run_iterate (isLoop : IsLoop step isFirst next Fits IsOne P mark) (written : AreSeparated IsOne as w)
    (fits : Fits state as) (isFirst : isFirst state = true) (rest : List UInt8) :
    (iterate state step).run (bytesOf (w ++ [mark]) ++ rest) = .ok (as.foldl next state, byte mark :: rest) := by
  obtain ⟨front, behind, rfl, blank, goes⟩ := isLoop.goes written state [] fits (isFirst ▸ .first)
  have follows : P (bytesOf (behind ++ [mark]) ++ rest) := isLoop.behind blank (by simp) [] rest
  rw [List.append_assoc, bytesOf_append, List.append_assoc]
  exact goes.run_iterate follows (isLoop.ends _ blank rest)

theorem run_iterate_nothing (isLoop : IsLoop step isFirst next Fits IsOne P mark) (blank : AreBlank b) (state : σ)
    (rest : List UInt8) : (iterate state step).run (bytesOf (b ++ [mark]) ++ rest) = .ok (state, byte mark :: rest) :=
  goes_nil.run_iterate (isLoop.behind blank (by simp) [] rest) (isLoop.ends state blank rest)

end IsLoop

/-- Before an element, blanks are moved over, and the comma if it is not the first. -/
theorem run_nextElement {isFirst : Bool} {lead : List Char} (leads : Leads isFirst lead) (blank : AreBlank b)
    (rest : List UInt8) :
    (nextElement isFirst).run (bytesOf (lead ++ b) ++ byte '"' :: rest) = .ok (true, byte '"' :: rest) := by
  cases leads with
  | first =>
    rw [List.nil_append, nextElement, run_bind_of (run_peekPart blank (by decide) _)]
    rfl
  | comma blank' =>
    have step (bytes : List UInt8) : (if byte ',' = byte ']' then return false
        else if false = true then return true
        else if byte ',' = byte ',' then do
          let _ ← take .cutOff
          if (← peekPart) = byte ']' then throw .malformed else return true
        else throw .malformed : Reader Bool).run (byte ',' :: bytes) =
      (peekPart >>= fun x => if x = byte ']' then throw .malformed else return true : Reader Bool).run bytes := rfl
    rw [List.append_assoc, bytesOf_append, List.append_assoc, List.singleton_append,
      bytesOf_ascii (by decide), List.cons_append,
      nextElement, run_bind_of (run_peekPart blank' (by decide) _), step,
        run_bind_of (run_peekPart blank (by decide) _)]
    rfl

theorem run_nextElement_end {isFirst : Bool} (blank : AreBlank b) (rest : List UInt8) :
    (nextElement isFirst).run (bytesOf (b ++ [']']) ++ rest) = .ok (false, byte ']' :: rest) := by
  rw [bytesOf_append, List.append_assoc, bytesOf_ascii (by decide), List.cons_append, nextElement,
    run_bind_of (run_peekPart blank (by decide) _)]
  rfl

/-- One round of `texts`: what has been read, the last text first. -/
def textsStep (found : List String) : Reader (Option (List String)) := do
  if ← nextElement found.isEmpty then return some ((← text) :: found) else return none

theorem goes_text {found : List String} {lead : List Char} (leads : Leads found.isEmpty lead)
    (written : IsElement s w) :
    Goes textsStep Anything (bytesOf (lead ++ w)) found (s :: found) := by
  obtain @⟨b, w, blank, written⟩ := written
  rw [← List.append_assoc, bytesOf_append, bytesOf_ascii (by decide)]
  refine goes_round (List.append_ne_nil_of_right_ne_nil _ (List.cons_ne_nil _ _)) fun rest _ => ?_
  have read : text.run (byte '"' :: (bytesOf (w ++ ['"']) ++ rest)) = .ok (s, rest) :=
    reads_text areBlank_nil written rest
  have step (bytes : List UInt8) :
    (if true = true then do return some ((← text) :: found) else return none : Reader _).run bytes =
      (text >>= fun next => return some (next :: found) : Reader _).run bytes := rfl
  rw [List.append_assoc, List.cons_append, textsStep, run_bind_of (run_nextElement leads blank _),
    step, run_bind_of read]
  rfl

theorem isLoop_textsStep : IsLoop textsStep List.isEmpty (fun found s => s :: found)
    (fun _ _ => True) IsElement Anything ']' where
  one _ written leads := goes_text leads written
  others _ := trivial
  notFirst _ _ := rfl
  behind _ _ _ _ _ := trivial
  ends _ _ blank rest := by
    rw [textsStep, run_bind_of (run_nextElement_end blank rest)]
    rfl

theorem texts_eq : texts = (do
    if (← peekPart) = byte '[' then
      let _ ← take .cutOff
      let found ← iterate ([] : List String) textsStep
      let _ ← takePart
      return found.reverse
    else refuse) := rfl

/-- What stands between the brackets of a list is read with the bracket at the end. -/
theorem reads_list {texts : List String} (before : AreBlank b)
    (inside : ∀ rest, (iterate [] textsStep).run (bytesOf (w ++ [']']) ++ rest) =
      .ok (texts.reverse, byte ']' :: rest)) :
    Reads Reader.texts (b ++ '[' :: (w ++ [']'])) texts := by
  intro rest
  have step (bytes : List UInt8) : (if byte '[' = byte '[' then do
        let _ ← take .cutOff
        let found ← iterate ([] : List String) textsStep
        let _ ← takePart
        return found.reverse
      else refuse : Reader _).run (byte '[' :: bytes) =
    (iterate ([] : List String) textsStep >>= fun found => takePart >>= fun _ =>
      return found.reverse : Reader _).run bytes := rfl
  rw [bytesOf_append, List.append_assoc, bytesOf_ascii (by decide), List.cons_append, texts_eq,
    run_bind_of (run_peekPart before (by decide) _), step, run_bind_of (inside rest), List.reverse_reverse]
  rfl

theorem reads_texts_of_holds {texts : List String} (blank : AreBlank b) (holds : Holds (.list (texts.map .text)) v) :
    Reads Reader.texts (b ++ v) texts := by
  generalize same : Json.list (texts.map .text) = value at holds
  cases holds with
  | null | text => cases same
  | noTexts inside =>
    obtain rfl := List.map_eq_nil_iff.mp (Json.list.inj same)
    exact reads_list blank (isLoop_textsStep.run_iterate_nothing inside [])
  | @texts found w inside =>
    have injective : Function.Injective Json.text := fun _ _ same => Json.text.inj same
    obtain rfl := List.map_injective_iff.mpr injective (Json.list.inj same)
    refine reads_list blank fun rest => ?_
    rw [isLoop_textsStep.run_iterate inside trivial rfl rest, List.foldl_flip_cons_eq_append', List.append_nil]

end ModuleBundler.Json.Reader
