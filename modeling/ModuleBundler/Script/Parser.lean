import ModuleBundler.Script.Rule

/-!
Parsers that move tokens into trees.

A parser works on the tokens to come and on the row of trees it has built from the tokens before them. It is a
piece of data: what it does is told by `Parser.run`, and what holds of all parsers is proved by induction on them.

A parser can neither lose, change nor reorder a token, and of the tokens to come it sees only what `Glimpse`
holds.
-/

namespace ModuleBundler.Script

/-- Whether a node of the kind may be built from any parts. A call of the superclass begins with a token. -/
def Kind.IsOther : Kind → Prop
  | .superCall => False
  | _ => True

theorem Kind.IsOther.ne {kind : Kind} (other : kind.IsOther) : kind ≠ .superCall := by
  rintro rfl
  exact other

/-- The tokens to come, and the row of trees built so far with the newest first. -/
structure State where
  built : List Tree
  rest : List Token

namespace State

/-- The tokens in the row. -/
def row (s : State) : List Token := Tree.leavesOf s.built.reverse

/-- Whether no token is in the row. -/
def isFresh (s : State) : Bool := s.built.all fun tree => tree.leaves.isEmpty

end State

/-- What a parser sees of a token to come. -/
structure Glimpse where
  lexeme : Lexeme
  /-- Whether a line ends before the token, behind another token of the row. -/
  afterBreak : Bool
  /-- Whether the token stands right behind the one before it. -/
  touches : Bool

/-- The token to come at a place, as a parser sees it. -/
def State.glimpse? (s : State) (place : Nat) : Option Glimpse :=
  match place, s.rest with
  | 0, token :: _ => some ⟨token.lexeme, token.afterBreak && !s.isFresh, false⟩
  | place + 1, rest =>
    match rest[place]?, rest[place + 1]? with
    | some before, some token => some ⟨token.lexeme, token.afterBreak, token.start = before.stop⟩
    | _, _ => none
  | 0, [] => none

inductive Parser : Type → Type 1
  | protected pure {α : Type} (a : α) : Parser α
  | protected bind {α β : Type} (p : Parser β) (f : β → Parser α) : Parser α
  | fail {α : Type} : Parser α
  /-- What `p` does, or what `q` does if `p` fails. -/
  | orElse {α : Type} (p q : Parser α) : Parser α
  /-- The token to come at a place, if there is one. -/
  | peek (place : Nat) : Parser (Option Glimpse)
  /-- What `p` finds, without moving on. A failure of `p` is no failure but an answer too. -/
  | ahead {α : Type} (p : Parser α) : Parser (Option α)
  /-- Moves one token into the row. A piece of a template does not come first there. -/
  | advance : Parser Unit
  /-- Puts what `p` builds into one node. -/
  | node {α : Type} (kind : Kind) (p : Parser α) (other : kind ≠ .superCall := by exact Kind.IsOther.ne trivial) :
      Parser α
  /-- Puts the newest tree of the row and what `p` builds after it into one node. -/
  | wrap {α : Type} (kind : Kind) (p : Parser α) (other : kind ≠ .superCall := by exact Kind.IsOther.ne trivial) :
      Parser α
  /-- Puts the newest token of the row and what `p` builds after it into one node, a call of the
  superclass. -/
  | superCall {α : Type} (p : Parser α) : Parser α
  /-- Goes from value to value as long as `step` gives a new one. -/
  | iterate {α : Type} (a : α) (step : α → Parser (Option α)) : Parser α
  /-- What a rule of the grammar does. -/
  | call {α : Type} (rule : Rule α) : Parser α

/-- What comes of running a parser. -/
inductive Outcome (α : Type)
  | found (a : α) (s : State)
  | refused
  /-- The tokens that are known do not decide it, or the rules have called each other too often. -/
  | unknown

namespace Outcome

variable {α β : Type}

/-- What comes of going on behind what has been found. -/
def andThen (outcome : Outcome α) (f : α → State → Outcome β) : Outcome β :=
  match outcome with
  | found a s => f a s
  | refused => refused
  | unknown => unknown

/-- What comes of trying something else where nothing has been found. -/
def otherwise (outcome second : Outcome α) : Outcome α :=
  match outcome with
  | refused => second
  | known => known

end Outcome

/-- What a parser is run with: the rules that it may call, and whether other tokens may stand behind those to come. -/
structure Reader where
  call : {α : Type} → Rule α → State → Outcome α
  isOpen : Bool

namespace Parser

variable {α β : Type}

instance : Monad Parser where
  pure := Parser.pure
  bind := Parser.bind

/-- The rounds of a loop. They are as many as there are tokens to come, and one more: a body that goes on moves at
least one token. -/
def rounds (step : α → State → Outcome (Option α)) : (number : Nat) → α → State → Outcome α
  | 0, _, _ => .unknown
  | number + 1, a, s => (step a s).andThen fun next t =>
    match next with
    | some b => rounds step number b t
    | none => .found a t

def run (r : Reader) : {α : Type} → Parser α → State → Outcome α
  | _, .pure a, s => .found a s
  | _, .bind p f, s => (run r p s).andThen fun a t => run r (f a) t
  | _, .fail, _ => .refused
  | _, .orElse p q, s => (run r p s).otherwise (run r q s)
  | _, .peek place, s => if r.isOpen && s.rest.length ≤ place then .unknown else .found (s.glimpse? place) s
  | _, .ahead p, s =>
    match run r p s with
    | .found a _ => .found (some a) s
    | .refused => .found none s
    | .unknown => .unknown
  | _, .advance, s =>
    match s.rest with
    | [] => if r.isOpen then .unknown else .refused
    | token :: rest =>
      if token.lexeme.isChunk && s.isFresh then .refused else .found () ⟨.leaf token :: s.built, rest⟩
  | _, .node kind p _, s =>
    (run r p ⟨[], s.rest⟩).andThen fun a t => .found a ⟨.node kind t.built.reverse :: s.built, t.rest⟩
  | _, .wrap kind p _, s =>
    match s with
    | ⟨[], _⟩ => .refused
    | ⟨newest :: older, rest⟩ =>
      (run r p ⟨[newest], rest⟩).andThen fun a t => .found a ⟨.node kind t.built.reverse :: older, t.rest⟩
  | _, .superCall p, s =>
    match s with
    | ⟨.leaf token :: older, rest⟩ =>
      (run r p ⟨[], rest⟩).andThen fun a t => .found a
        ⟨.node .superCall (.leaf token :: t.built.reverse) :: older, t.rest⟩
    | _ => .refused
  | _, .iterate a step, s => rounds (fun b t => run r (step b) t) (s.rest.length + 1) a s
  | _, .call rule, s => r.call rule s

/-- What `p` does and finds, or nothing if it fails. -/
def attempt (p : Parser α) : Parser (Option α) :=
  orElse (do return some (← p)) (return none)

/-- Goes on as long as `step` says so. -/
def repeatWhile (step : Parser Bool) : Parser Unit :=
  iterate () fun _ => do return if ← step then some () else none

/-- The next lexeme, if there is one. -/
def nextLexeme : Parser (Option Lexeme) := do return (← peek 0).map Glimpse.lexeme

def headIs (p : Lexeme → Bool) : Parser Bool := do return (← peek 0).any fun t => p t.lexeme

/-- Whether the token after the next one is as `p` says. -/
def secondIs (p : Lexeme → Bool) : Parser Bool := do return (← peek 1).any fun t => p t.lexeme

/-- Whether the third token to come is as `p` says. -/
def thirdIs (p : Lexeme → Bool) : Parser Bool := do return (← peek 2).any fun t => p t.lexeme

/-- Whether the next token is as `p` says and the one after it as `q` says. -/
def nextTwo (p q : Glimpse → Bool) : Parser Bool := do
  if (← peek 0).any p then return (← peek 1).any q else return false

def atMark (m : Mark) : Parser Bool := headIs (· = .mark m)

def atKeyword (k : Keyword) : Parser Bool := headIs (· = .keyword k)

/-- Whether the next token is the name with this spelling. -/
def atName (text : String) : Parser Bool := headIs (· = .name text)

/-- Whether a line ends before the next token. -/
def afterBreak : Parser Bool := do return (← peek 0).any Glimpse.afterBreak

/-- Whether a line ends between the next token and the one after it. -/
def breakInside : Parser Bool := do return (← peek 1).any Glimpse.afterBreak

def atEnd : Parser Bool := do return (← peek 0).isNone

/-- Moves the next token if it is as `p` says, and tells whether it was. -/
def eat (p : Lexeme → Bool) : Parser Bool := do
  if ← headIs p then
    advance
    return true
  else return false

def eatMark (m : Mark) : Parser Bool := eat (· = .mark m)

def eatKeyword (k : Keyword) : Parser Bool := eat (· = .keyword k)

def eatName (text : String) : Parser Bool := eat (· = .name text)

def expect (p : Lexeme → Bool) : Parser Unit := do
  if ← headIs p then advance else fail

def expectMark (m : Mark) : Parser Unit := expect (· = .mark m)

def expectKeyword (k : Keyword) : Parser Unit := expect (· = .keyword k)

def expectName (text : String) : Parser Unit := expect (· = .name text)

/-- Fails unless the condition holds. -/
def guardThat (b : Bool) : Parser Unit := if b then return () else fail

/-- Moves a string literal, and gives its value. -/
def expectText : Parser String := do
  match ← nextLexeme with
  | some (.text value) =>
    advance
    return value
  | _ => fail

/-- Whether a statement may end here: at a semicolon, before a closing brace, at the end of a line or of
the source. -/
def atStatementEnd : Parser Bool := do
  match ← peek 0 with
  | none => return true
  | some t => return t.lexeme = .mark .semicolon || t.lexeme = .mark .braceR || t.afterBreak

/-- Ends a statement where it may end, with its semicolon if there is one, and tells whether it may. -/
def eatStatementEnd : Parser Bool := do
  if ← eatMark .semicolon then return true else atStatementEnd

def expectStatementEnd : Parser Unit := do
  guardThat (← eatStatementEnd)

/-- Elements separated by commas, up to `closer`. A comma may follow the last one. -/
def commaList (closer : Mark) (element : Parser Unit) : Parser Unit := do
  repeatWhile do
    if ← atMark closer then return false
    element
    if ← eatMark .comma then return true
    guardThat (← atMark closer)
    return false
  expectMark closer

end Parser

end ModuleBundler.Script
