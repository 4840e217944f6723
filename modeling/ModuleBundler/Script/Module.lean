import ModuleBundler.Script.Grammar.Items
import ModuleBundler.Script.Lexer

namespace ModuleBundler.Script

namespace Grammar

/-- What a rule does. -/
def body : {α : Type} → Rule α → Parser α
  | _, .expression c => expressionRule c
  | _, .assignment c => assignmentRule c
  | _, .operation c atStart => operationRule c atStart
  | _, .operand c => operandRule c false
  | _, .operators c level left => operatorsRule c level left
  | _, .chain c => chainRule c false
  | _, .constructed c => constructedRule c
  | _, .type => typeRule
  | _, .typeOperand => typeOperandRule
  | _, .pattern c => patternRule c
  | _, .statement c declaring => statementRule c declaring
  | _, .item c => itemRule c

/-- Rules that call each other up to a depth. -/
def reader (isOpen : Bool) : (depth : Nat) → Reader
  | 0 => ⟨fun _ _ => .unknown, isOpen⟩
  | depth + 1 => ⟨fun rule s => (body rule).run (reader isOpen depth) s, isOpen⟩

end Grammar

/-- A module: its text and what it says. -/
structure Module where
  text : List Char
  items : List Item

namespace Module

open Script.Parser in
/-- All items up to the end of the source. -/
def itemsParser : Parser (List ItemKind) :=
  iterate [] fun kinds => do
    if ← atEnd then return none
    return some ((← Grammar.item {}) :: kinds)

/-- The depth that a source of this many tokens cannot exceed: between two tokens, a rule passes through
only a few others. -/
def depthFor (tokens : List Token) : Nat := 4 * tokens.length + 32

/-- The items of a module from its tokens. -/
def itemsOf? (tokens : List Token) : Option (List Item) :=
  match itemsParser.run (Grammar.reader false (depthFor tokens)) ⟨[], tokens⟩ with
  | .found kinds s => some (List.zipWith Item.mk kinds s.built).reverse
  | _ => none

/-- The text without a byte order mark before it. -/
def withoutByteOrderMark : List Char → List Char
  | [] => []
  | c :: rest => if c.toNat = 0xfeff then rest else c :: rest

/-- Reads the text of a module. -/
def parse? (source : List Char) : Option Module :=
  let text := withoutByteOrderMark source
  match Lexer.tokenize? text with
  | some tokens => (itemsOf? tokens).map fun items => ⟨text, items⟩
  | none => none

/-- All tokens of a module. -/
def tokens (m : Module) : List Token := m.items.flatMap fun item => item.tree.leaves

/-- The modules that the module depends on, as it names them. -/
def sources (m : Module) : List String := m.items.filterMap fun item => item.kind.source?

end Module

end ModuleBundler.Script
