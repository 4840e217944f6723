import ModuleBundler.Log
import ModuleBundler.Script.Module
import ModuleBundler.Text.Blank
import ModuleBundler.Text.Edit
import ModuleBundler.Text.Search

/-!
The text of a module as a plain script.

`Module.plain` takes the wiring out of a module: imports, re-exports and lists of exports disappear,
exported declarations lose the keywords before them, and a constructor that hands all its arguments on
hands on none, since no arguments reach it in a script. Then lines that hold nothing but a comment are
dropped, unless they begin inside a literal.
-/

namespace ModuleBundler.Script

open Text (Span Edit)

namespace Module

/-- The end of a statement with the semicolon and the white space after it. -/
def statementStop (text : List Char) (stop : Nat) : Nat :=
  let closed :=
    if text[stop - 1]? = some ';' then stop
    else
      let next := stop + Text.blankLength (text.drop stop)
      if text[next]? = some ';' then next + 1 else stop
  closed + Text.blankLength (text.drop closed)

/-- The end of the keywords that stand at a place, each with the white space after it. There is no answer
if something else stands there. -/
def keywordsStop? (text : List Char) : (place : Nat) → (keywords : List String) → Option Nat
  | place, [] => some place
  | place, k :: keywords =>
    if k.toList.isPrefixOf (text.drop place) then
      let stop := place + k.length
      keywordsStop? text (stop + Text.blankLength (text.drop stop)) keywords
    else none

/-- Removes keywords from the beginning of an item. -/
def keywordEdit (text : List Char) (item : Item) (keywords : List String) : List Edit :=
  match keywordsStop? text item.start keywords with
  | some stop => [.remove item.start stop]
  | none => []

/-- What has to be edited so that an item makes sense in a script. -/
def wiringEdits (text : List Char) (item : Item) : List Edit :=
  match item.kind with
  | .importing .. | .reexporting _ | .reexportingAs _ | .exportList =>
    [.remove item.start (statementStop text item.stop)]
  | .exportedDeclaration => keywordEdit text item ["export"]
  | .exportedDefault => keywordEdit text item ["export", "default"]
  | .statement | .exportedConstants | .aliasing => []

/-- Whether a call hands all arguments on to the superclass. -/
def isForwarding (call : Tree) : Bool :=
  let lexemes := call.leaves.map Token.lexeme
  let forwarding : List Lexeme :=
    [.keyword .super_, .mark .parenL, .mark .ellipsis, .name "arguments"]
  lexemes = forwarding ++ [.mark .parenR] || lexemes = forwarding ++ [.mark .comma, .mark .parenR]

/-- Replaces the calls in an item that hand all arguments on. -/
def forwardingEdits (item : Item) : List Edit :=
  ((item.tree.nodesOf .superCall).filter isForwarding).map fun call =>
    ⟨⟨call.start, call.stop⟩, "super()".toList⟩

/-- All edits that make a script of a module. -/
def edits (m : Module) : List Edit :=
  m.items.flatMap (wiringEdits m.text) ++ (m.items.filter fun item => !item.kind.isWiring).flatMap forwardingEdits

/-- The spans of the literals of a module. -/
def literals (m : Module) : List Span :=
  (m.tokens.filter fun token => token.lexeme.isQuoted).map fun token => ⟨token.start, token.stop⟩

/-- The text of a module after its edits. -/
def edited (m : Module) : List Char := Edit.applyAll m.edits m.text

/-- Where the literals that no edit touches stand after the edits. -/
def editedLiterals (m : Module) : List Span := m.literals.filterMap (Edit.shift? m.edits)

/-- Whether a line that begins at `start` is kept. -/
def keepsLine (literals : List Span) (start : Nat) (line : List Char) : Bool :=
  (literals.any fun span => span.start < start && start < span.stop) ||
    (match Text.trim line with
      | [] => false
      | '/' :: '/' :: _ => false
      | _ => true)

/-- The lines that are kept. The first one begins at `start`. -/
def keptLines (literals : List Span) : (start : Nat) → List (List Char) → List (List Char)
  | _, [] => []
  | start, line :: lines =>
    let others := keptLines literals (start + line.length + 1) lines
    if keepsLine literals start line then line :: others else others

/-- Drops the blank lines and the lines that begin with a comment. -/
def compact (literals : List Span) (text : List Char) : List Char :=
  Text.joinWith ['\n'] (keptLines literals 0 (Text.splitOn '\n' text))

/-- Number of bytes before a place. -/
def byteOffset (text : List Char) (place : Nat) : Nat := (String.ofList (text.take place)).utf8ByteSize

/-- What is reported of a module by the name `name`. -/
def plainEvents (name : String) (m : Module) : List Event :=
  (m.items.filter fun item => item.kind = .aliasing).map (fun _ => .unsupportedItem name) ++
    (Edit.overlaps m.edits).map fun place => .overlappingEdit (byteOffset m.text place)

/-- The module as a plain script. -/
def plainText (m : Module) : List Char :=
  Text.trim (compact m.editedLiterals m.edited)

/-- The module as a plain script, with what is reported of it by the name `name`. -/
def plain (name : String) (m : Module) : Noted String :=
  ⟨String.ofList m.plainText, m.plainEvents name⟩

end Module

end ModuleBundler.Script
