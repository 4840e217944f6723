import ModuleBundler.Script.Grammar.Types

namespace ModuleBundler.Script.Grammar

open Script.Parser

inductive Operator
  | binary (op : BinaryOp)
  | assign (op : AssignOp)
  /-- A word that compares two operands. -/
  | word (k : Keyword)
  deriving DecidableEq, Repr

/-- How many tokens from a place on, up to a limit, are all `m` and touch the token before them. -/
def touching (m : Mark) (place : Nat) : (limit : Nat) → Parser Nat
  | 0 => return 0
  | limit + 1 => do
    if (← peek place).any fun t => t.lexeme = .mark m && t.touches then return (← touching m (place + 1) limit) + 1
    else return 0

/-- The operator that comes next, and how many tokens it is. -/
def operatorAhead? : Parser (Option (Operator × Nat)) := do
  match ← nextLexeme with
  | some (.keyword .in_) => return some (.word .in_, 1)
  | some (.keyword .instanceof) => return some (.word .instanceof, 1)
  | some (.mark (.assign op)) => return some (.assign op, 1)
  | some (.mark (.binary .lt)) =>
    let angles ← touching openAngle 1 1
    let equals ← touching (.assign .plain) (1 + angles) 1
    match angles, equals with
    | 0, 0 => return some (.binary .lt, 1)
    | 0, _ => return some (.binary .le, 2)
    | _, 0 => return some (.binary .shl, 2)
    | _, _ => return some (.assign .shl, 3)
  | some (.mark (.binary .gt)) =>
    let angles ← touching closeAngle 1 2
    let equals ← touching (.assign .plain) (1 + angles) 1
    match angles, equals with
    | 0, 0 => return some (.binary .gt, 1)
    | 0, _ => return some (.binary .ge, 2)
    | 1, 0 => return some (.binary .shr, 2)
    | 1, _ => return some (.assign .shr, 3)
    | _, 0 => return some (.binary .ushr, 3)
    | _, _ => return some (.assign .ushr, 4)
  | some (.mark (.binary op)) => return some (.binary op, 1)
  | _ => return none

def Operator.level : Operator → Nat
  | binary op => op.level
  | word _ => 7
  | assign _ => 0

/-- Moves a number of tokens. -/
def advanceBy : Nat → Parser Unit
  | 0 => return ()
  | n + 1 => do
    advance
    advanceBy n

/-- Moves the tokens of an operator. -/
def advanceOperator : Parser Unit := do
  match ← operatorAhead? with
  | some (_, count) => advanceBy count
  | none => fail

/-- The operator between two operands that comes next, if it binds tighter than a level. -/
def operatorAbove? (c : Context) (level : Nat) : Parser (Option Operator) := do
  match ← operatorAhead? with
  | some (op, _) => return if level < op.level && !(c.noIn && op = .word .in_) then some op else none
  | none => return none

/-- Whether an operator made of marks comes next. -/
def atMarkOperator : Parser Bool := do return (← operatorAhead?).any fun found => found.1 matches .binary _

/-- The assignment that comes next, if there is one. -/
def assignmentAhead? : Parser (Option AssignOp) := do
  match ← operatorAhead? with
  | some (.assign op, _) => return some op
  | _ => return none

/-- The operators that bind tighter than a level, with the operands after them. Operators of one level
group to the left, powers to the right. A type behind `as` binds like a comparison. -/
def operatorsRule (c : Context) (level : Nat) (left : Shape) : Parser Shape := do
  if level < 7 && !(← afterBreak) && (← atName "as") then
    wrap .assertion do
      advance
      if ← eatKeyword .const_ then return ()
      type
    operators c level .other
  else
    match ← operatorAbove? c level with
    | none => return left
    | some op =>
      guardThat !(left = .unary && op = .binary .power)
      wrap .binary do
        advanceOperator
        let right ← operand c
        let _ ← operators c (if op = .binary .power then 10 else op.level) right
      operators c level .operation

end ModuleBundler.Script.Grammar
