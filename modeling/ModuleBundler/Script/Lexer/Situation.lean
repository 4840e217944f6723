import ModuleBundler.Script.Token

/-!
Where in a script the lexer stands.

A slash begins a regular expression where an operand is expected and divides elsewhere, and a closing
brace goes on with a template where it ends a substitution. Neither can be told from the text alone, so
the lexer keeps a `Situation`: the brackets that are open, the token before, and whether an operand is
expected next. `Situation.after` says how a token changes it.
-/

namespace ModuleBundler.Script.Lexer

/-- What is open, and will be closed by a bracket, a brace or a backtick. -/
inductive Region
  | blockBraces
  | objectBraces
  /-- The braces of a substitution in a template. -/
  | substitution
  /-- The parentheses behind `if`, `while`, `with` or `for`. A statement follows them. -/
  | headParens (loop : Bool)
  | parens
  | template
  /-- A function that is an operand. It ends with the block that is its body. -/
  | functionValue
  deriving DecidableEq, Repr

structure Situation where
  /-- What is open, the innermost first. The script itself counts as a block. -/
  regions : List Region
  previous : Option Lexeme
  operandNext : Bool
  /-- Whether a line ends before the previous token. -/
  previousAfterBreak : Bool

namespace Situation

def initial : Situation where
  regions := [.blockBraces]
  previous := none
  operandNext := true
  previousAfterBreak := false

/-- Whether the text that comes next is a piece of a template. -/
def inTemplate (s : Situation) : Bool := s.regions.head? = some .template

/-- Whether the lexeme ends an operand for certain, so that a brace in a new line after it opens a
block. -/
def endsOperand : Lexeme → Bool
  | .name _ | .number _ | .text _ | .regex _ => true
  | .keyword k => k = .null_ || k = .true_ || k = .false_
  | .mark m =>
    m = .bracketR || m = .braceR || m = .backtick || m = .hash || m = .atSign || m = .increment || m = .decrement
  | .chunk _ => false

/-- Whether a brace opens a block here; otherwise it opens an object. -/
def opensBlock (s : Situation) (afterBreak : Bool) : Bool :=
  match s.previous with
  | none => true
  | some lexeme =>
    if lexeme = .mark .colon && (s.regions.head? = some .blockBraces || s.regions.head? = some .objectBraces) then
      s.regions.head? = some .blockBraces
    else
      match lexeme with
      | .keyword .return_ | .keyword .yield => afterBreak
      | .keyword .else_ | .mark .semicolon | .mark .parenR => true
      | .mark .braceL => s.regions.head? = some .blockBraces
      | .mark (.binary .lt) | .mark (.binary .gt) | .mark .arrow => true
      | _ => (afterBreak && endsOperand lexeme) || !s.operandNext

/-- Whether a word in a list of declared names comes first in a line: an operand may follow it there. -/
def startsDeclaredLine (s : Situation) : Bool :=
  s.previousAfterBreak &&
    (s.previous = some (.keyword .let_) || s.previous = some (.keyword .const_) || s.previous = some (.keyword .var_))

/-- The open regions and the expectation after a closing parenthesis or brace. -/
def close (s : Situation) : List Region × Bool :=
  match s.regions with
  | [] => ([], true)
  | [only] => ([only], true)
  | .blockBraces :: .functionValue :: rest => (rest, false)
  | .substitution :: rest => (rest, rest.head? ≠ some .template)
  | .blockBraces :: rest | .headParens _ :: rest => (rest, true)
  | _ :: rest => (rest, false)

/-- The open regions and the expectation after a token. -/
def advance (s : Situation) (lexeme : Lexeme) (afterBreak : Bool) : List Region × Bool :=
  let open_ := s.regions
  if s.previous = some (.mark .dot) && lexeme.isKeyword then (open_, false)
  else match lexeme with
    | .mark .parenR | .mark .braceR => s.close
    | .keyword .function =>
      (if s.operandNext && !s.opensBlock afterBreak then .functionValue :: open_ else open_, false)
    | .name n =>
      if n = "of" && open_.head? = some (.headParens true) then
        (open_, !(s.previous.any Lexeme.precedesOperand))
      else (open_, s.startsDeclaredLine)
    | .mark .braceL =>
      ((if s.opensBlock afterBreak then .blockBraces else .objectBraces) :: open_, true)
    | .mark .dollarBrace => (.substitution :: open_, true)
    | .mark .parenL =>
      match s.previous with
      | some (.keyword .if_) | some (.keyword .with_) | some (.keyword .while_) => (.headParens false :: open_, true)
      | some (.keyword .for_) => (.headParens true :: open_, true)
      | _ => (.parens :: open_, true)
    | .mark .increment | .mark .decrement => (open_, s.operandNext)
    | .mark .backtick => (if s.inTemplate then open_.drop 1 else .template :: open_, false)
    | .mark .bang => (open_, s.operandNext || afterBreak)
    | _ => (open_, lexeme.precedesOperand)

/-- The situation after a token. -/
def after (s : Situation) (token : Token) : Situation :=
  let (regions, operandNext) := s.advance token.lexeme token.afterBreak
  { regions, operandNext, previous := some token.lexeme, previousAfterBreak := token.afterBreak }

end Situation

end ModuleBundler.Script.Lexer
