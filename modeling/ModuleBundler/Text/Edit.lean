namespace ModuleBundler.Text

/-- The characters from `start` up to but not including `stop`. -/
structure Span where
  start : Nat
  stop : Nat
  deriving DecidableEq, Repr

/-- Number of characters of a span. -/
def Span.length (s : Span) : Nat := s.stop - s.start

structure Edit where
  span : Span
  replacement : List Char
  deriving DecidableEq, Repr

namespace Edit

/-- Removes a span. -/
def remove (start stop : Nat) : Edit := ⟨⟨start, stop⟩, []⟩

/-- The edits in the order of the text. Edits that begin at one place keep their order. -/
def sorted (edits : List Edit) : List Edit := edits.mergeSort fun a b => a.span.start ≤ b.span.start

/-- Makes edits that are in order. `rest` is the text from `position` on; an edit that begins before
`position` overlaps an earlier one and is left out. -/
def applyFrom (position : Nat) : (edits : List Edit) → (rest : List Char) → List Char
  | [], rest => rest
  | e :: edits, rest =>
    if e.span.start < position then applyFrom position edits rest
    else
      rest.take (e.span.start - position) ++ e.replacement ++
        applyFrom e.span.stop edits (rest.drop (e.span.stop - position))

/-- The places of the edits that are left out. -/
def overlapsFrom (position : Nat) : List Edit → List Nat
  | [] => []
  | e :: edits =>
    if e.span.start < position then e.span.start :: overlapsFrom position edits
    else overlapsFrom e.span.stop edits

/-- Makes the edits; what they do not touch stays as it is. -/
def applyAll (edits : List Edit) (text : List Char) : List Char := applyFrom 0 (sorted edits) text

/-- The places of the edits that `applyAll` leaves out. -/
def overlaps (edits : List Edit) : List Nat := overlapsFrom 0 (sorted edits)

/-- Where the beginning of a span moves, if no edit touches the span: an edit before it moves it by what
the text grows or shrinks there. -/
def shiftStart (span : Span) : (place : Int) → List Edit → Option Int
  | place, [] => some place
  | place, e :: edits =>
    if e.span.stop ≤ span.start then
      shiftStart span (place + (e.replacement.length - e.span.length)) edits
    else if e.span.start < span.stop then none
    else shiftStart span place edits

/-- Where a span stands after the edits. There is no answer for a span that an edit touches. -/
def shift? (edits : List Edit) (span : Span) : Option Span :=
  (shiftStart span span.start edits).map fun place => ⟨place.toNat, place.toNat + span.length⟩

end Edit

end ModuleBundler.Text
