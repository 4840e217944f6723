import ModuleBundler.Json
import ModuleBundler.Proofs.Text.Quoted
import ModuleBundler.Text.Search

/-!
How JSON may be written.

A character may be written in several ways between quotes: as itself, by a letter behind a backslash, or by the
number of one unit of UTF-16 or of two (`CharAs`). Of a value that nobody needs only the form is told
(`IsFormed`), where a unit may also be one half of a character. Of an object it is told which names its members
have and how their values are written (`IsObject`).
-/

namespace ModuleBundler.Json

/-- Whether something holds for a few characters is decided for one after the other, and not for all characters
that there are. -/
theorem forall_mem {P : Char → Prop} [DecidablePred P] {cs : List Char} (all : cs.all (P ·) = true) : ∀ c ∈ cs, P c :=
  fun c member => of_decide_eq_true (List.all_eq_true.mp all c member)

/-- Whether some characters may stand between the parts of a value. -/
def AreBlank (cs : List Char) : Prop := ∀ c ∈ cs, c ∈ [' ', '\n', '\t', '\r']

theorem areBlank_nil : AreBlank [] := fun _ member => absurd member List.not_mem_nil

/-- How one or more things may be written one behind the other, with commas between them. -/
inductive AreSeparated {α : Type} (IsOne : α → List Char → Prop) : List α → List Char → Prop
  | last {a : α} {w b : List Char} (written : IsOne a w) (behind : AreBlank b) : AreSeparated IsOne [a] (w ++ b)
  | next {a : α} {as : List α} {w b ws : List Char} (written : IsOne a w) (behind : AreBlank b)
      (others : AreSeparated IsOne as ws) : AreSeparated IsOne (a :: as) (w ++ (b ++ ',' :: ws))

/-- What is joined by commas without blanks is separated by commas. -/
theorem areSeparated_joinWith {α β : Type} {IsOne : β → List Char → Prop} {f : α → β} {write : α → List Char}
    (written : ∀ a, IsOne (f a) (write a)) (as : List α) :
    ∀ a, AreSeparated IsOne ((a :: as).map f) (Text.joinWith [','] ((a :: as).map write)) := by
  induction as with
  | nil =>
    intro a
    have last := AreSeparated.last (written a) areBlank_nil
    rwa [List.append_nil] at last
  | cons next as ih =>
    intro a
    have separated := AreSeparated.next (written a) areBlank_nil (ih next)
    simpa only [Text.joinWith, List.map_cons, List.append_assoc, List.nil_append, List.singleton_append]
      using separated

/-- Whether a character is a digit in base sixteen with this value. -/
def IsHexDigit (c : Char) (n : Nat) : Prop := n < 16 ∧ (c = Text.hexDigit n ∨ c = (Text.hexDigit n).toUpper)

/-- Whether four digits are the number of a unit of UTF-16. -/
inductive IsUnit : List Char → Nat → Prop
  | digits {a b c d : Char} {w x y z : Nat} (first : IsHexDigit a w) (second : IsHexDigit b x)
      (third : IsHexDigit c y)
      (fourth : IsHexDigit d z) : IsUnit [a, b, c, d] (((w * 16 + x) * 16 + y) * 16 + z)

/-- The letters that may stand behind a backslash for a character. -/
def letters : List (Char × Char) := ('/', '/') :: Text.letterEscapes

/-- How a character may be written between quotes. -/
inductive CharAs : List Char → Char → Prop
  | plain {c : Char} (noQuote : c ≠ '"') (noEscape : c ≠ '\\') (visible : 0x20 ≤ c.toNat) : CharAs [c] c
  | letter {letter c : Char} (escape : (letter, c) ∈ letters) : CharAs ['\\', letter] c
  | unit {digits : List Char} {c : Char} (isUnit : IsUnit digits c.toNat) : CharAs ('\\' :: 'u' :: digits) c
  /-- A character beyond the first plane is two units. -/
  | pair {digits digits' : List Char} {lead trail : Nat} {c : Char} (first : IsUnit digits lead)
      (second : IsUnit digits' trail)
      (isLead : 0xd800 ≤ lead ∧ lead ≤ 0xdbff) (isTrail : 0xdc00 ≤ trail ∧ trail ≤ 0xdfff)
      (isChar : c.toNat = 0x10000 + (lead - 0xd800) * 0x400 + (trail - 0xdc00)) :
      CharAs ('\\' :: 'u' :: (digits ++ '\\' :: 'u' :: digits')) c

/-- How a text may be written between quotes. -/
inductive TextAs : List Char → List Char → Prop
  | nil : TextAs [] []
  | cons {w ws : List Char} {c : Char} {cs : List Char} (first : CharAs w c) (rest : TextAs ws cs) :
      TextAs (w ++ ws) (c :: cs)

/-- What `Text.quote` writes is one of the ways. -/
theorem charAs_quoteChar (c : Char) : CharAs (Text.quoteChar c) c := by
  rcases Text.quoteChar_cases c with ⟨letter, escape, eq⟩ | ⟨control, eq⟩ | ⟨noQuote, noEscape, visible, eq⟩
  · rw [eq]
    exact .letter (List.mem_cons_of_mem _ escape)
  · have digit {n : Nat} (small : n < 16) : IsHexDigit (Text.hexDigit n) n := ⟨small, Or.inl rfl⟩
    have zero : IsHexDigit '0' 0 := digit (by decide)
    have isUnit := IsUnit.digits zero zero (digit (show c.toNat / 16 < 16 by omega))
      (digit (show c.toNat % 16 < 16 by omega))
    rw [show ((0 * 16 + 0) * 16 + c.toNat / 16) * 16 + c.toNat % 16 = c.toNat by omega] at isUnit
    rw [eq]
    exact .unit isUnit
  · rw [eq]
    exact .plain noQuote noEscape visible

theorem textAs_quoted (content : List Char) : TextAs (content.flatMap Text.quoteChar) content := by
  induction content with
  | nil => exact .nil
  | cons c content ih =>
    rw [List.flatMap_cons]
    exact .cons (charAs_quoteChar c) ih

/-- How a text may be written as an element of a list, with the blanks before it. -/
inductive IsElement : String → List Char → Prop
  | mk {s : String} {b w : List Char} (before : AreBlank b) (written : TextAs w s.toList) :
      IsElement s (b ++ '"' :: (w ++ ['"']))

/-- How nothing, a text or a list of texts may be written. -/
inductive Holds : Json → List Char → Prop
  | null : Holds .null "null".toList
  | text {s : String} {w : List Char} (written : TextAs w s.toList) : Holds (.text s) ('"' :: (w ++ ['"']))
  | noTexts {b : List Char} (inside : AreBlank b) : Holds (.list []) ('[' :: (b ++ [']']))
  | texts {ss : List String} {w : List Char} (inside : AreSeparated IsElement ss w) :
      Holds (.list (ss.map .text)) ('[' :: (w ++ [']']))

/-- Whether some characters are digits, and one at least. -/
def AreDigits (cs : List Char) : Prop := cs ≠ [] ∧ ∀ c ∈ cs, c ∈ "0123456789".toList

/-- How the part of a number behind its point may be written, with the point. -/
inductive IsFraction : List Char → Prop
  | none : IsFraction []
  | some {ds : List Char} (digits : AreDigits ds) : IsFraction ('.' :: ds)

/-- How the exponent of a number may be written. -/
inductive IsExponent : List Char → Prop
  | none : IsExponent []
  | some {e : Char} {sign ds : List Char} (isE : e ∈ ['e', 'E']) (isSign : sign ∈ [[], ['+'], ['-']])
      (digits : AreDigits ds) :
      IsExponent (e :: (sign ++ ds))

/-- How a number may be written. No zero stands before other digits of a whole number. -/
inductive IsNumber : List Char → Prop
  | mk {sign whole fraction exponent : List Char} (isSign : sign ∈ [[], ['-']]) (digits : AreDigits whole)
      (noZero : whole.head? = some '0' → whole = ['0']) (isFraction : IsFraction fraction)
      (isExponent : IsExponent exponent) :
      IsNumber (sign ++ (whole ++ (fraction ++ exponent)))

/-- Whether some characters may stand between quotes for a character or for one half of it. -/
inductive IsPiece : List Char → Prop
  | plain {c : Char} (noQuote : c ≠ '"') (noEscape : c ≠ '\\') (visible : 0x20 ≤ c.toNat) : IsPiece [c]
  | letter {letter c : Char} (escape : (letter, c) ∈ letters) : IsPiece ['\\', letter]
  | unit {digits : List Char} {n : Nat} (isUnit : IsUnit digits n) : IsPiece ('\\' :: 'u' :: digits)

/-- Whether some characters may stand between quotes. -/
inductive IsText : List Char → Prop
  | nil : IsText []
  | cons {w ws : List Char} (first : IsPiece w) (rest : IsText ws) : IsText (w ++ ws)

/-- What of a value is written: the value, or what stands between the brackets of a list or an
object that is not empty. -/
inductive Part
  | value
  | elements
  | members

/-- Whether some characters have the form of a part of a value. -/
inductive IsFormed : Part → List Char → Prop
  | word {w : List Char} (isWord : w ∈ ["null".toList, "true".toList, "false".toList]) : IsFormed .value w
  | number {w : List Char} (isNumber : IsNumber w) : IsFormed .value w
  | text {w : List Char} (isText : IsText w) : IsFormed .value ('"' :: (w ++ ['"']))
  | emptyList {b : List Char} (inside : AreBlank b) : IsFormed .value ('[' :: (b ++ [']']))
  | list {w : List Char} (inside : IsFormed .elements w) : IsFormed .value ('[' :: (w ++ [']']))
  | emptyObject {b : List Char} (inside : AreBlank b) : IsFormed .value ('\x7b' :: (b ++ ['\x7d']))
  | object {w : List Char} (inside : IsFormed .members w) : IsFormed .value ('\x7b' :: (w ++ ['\x7d']))
  | lastElement {b v b' : List Char} (before : AreBlank b) (value : IsFormed .value v) (behind : AreBlank b') :
      IsFormed .elements (b ++ (v ++ b'))
  | nextElement {b v b' ws : List Char} (before : AreBlank b) (value : IsFormed .value v) (behind : AreBlank b')
      (others : IsFormed .elements ws) : IsFormed .elements (b ++ (v ++ (b' ++ ',' :: ws)))
  | lastMember {b k b' b'' v e : List Char} (before : AreBlank b) (key : IsText k) (between : AreBlank b')
      (between' : AreBlank b'') (value : IsFormed .value v) (behind : AreBlank e) :
      IsFormed .members (b ++ '"' :: (k ++ '"' :: (b' ++ ':' :: (b'' ++ (v ++ e)))))
  | nextMember {b k b' b'' v e ws : List Char} (before : AreBlank b) (key : IsText k) (between : AreBlank b')
      (between' : AreBlank b'') (value : IsFormed .value v) (behind : AreBlank e) (others : IsFormed .members ws) :
      IsFormed .members (b ++ '"' :: (k ++ '"' :: (b' ++ ':' :: (b'' ++ (v ++ (e ++ ',' :: ws))))))

/-- How a member may be written that has a name and whose value is written in some way. -/
inductive IsMember : String × List Char → List Char → Prop
  | mk {name : String} {b k b' b'' v : List Char} (before : AreBlank b) (key : TextAs k name.toList)
      (between : AreBlank b')
      (between' : AreBlank b'') : IsMember (name, v) (b ++ '"' :: (k ++ '"' :: (b' ++ ':' :: (b'' ++ v))))

/-- How an object may be written that has some members. -/
inductive IsObject : List (String × List Char) → List Char → Prop
  | empty {b i b' : List Char} (before : AreBlank b) (inside : AreBlank i) (behind : AreBlank b') :
      IsObject [] (b ++ '\x7b' :: (i ++ '\x7d' :: b'))
  | some {members : List (String × List Char)} {b w b' : List Char} (before : AreBlank b)
      (inside : AreSeparated IsMember members w)
      (behind : AreBlank b') : IsObject members (b ++ '\x7b' :: (w ++ '\x7d' :: b'))

end ModuleBundler.Json
