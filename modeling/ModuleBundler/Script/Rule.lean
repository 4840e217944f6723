import ModuleBundler.Script.Item

/-!
The rules of the grammar by name, and what they tell each other.

The rules call each other in circles, so a rule calls another one by its name. What a rule must know about its
surroundings is in a `Context`, and what it must know about an expression already read is in a `Shape`.
-/

namespace ModuleBundler.Script

/-- What an expression may hold depends on where it stands. -/
structure Context where
  /-- Whether `in` ends the expression, as in the head of a loop. -/
  noIn : Bool := false
  generator : Bool := false
  /-- Whether the surroundings only declare what exists elsewhere. -/
  ambient : Bool := false
  /-- Whether the expression is a branch of a conditional expression. -/
  inBranch : Bool := false
  /-- Whether the colon of a conditional expression is still to come. -/
  colonAhead : Bool := false

namespace Context

/-- The context of an expression between brackets or commas. -/
def enclosed (c : Context) : Context := { c with noIn := false, colonAhead := false }

/-- The context of an expression that ends by a mark of its own. -/
def withIn (c : Context) : Context := { c with noIn := false }

/-- The context of the body of a function. -/
def body (c : Context) (generator : Bool) : Context := { ambient := c.ambient, generator }

/-- The context of the statements in a block. -/
def block (c : Context) : Context := { ambient := c.ambient, generator := c.generator }

/-- The context of the body of an arrow function. -/
def arrowBody (c : Context) : Context := { c with generator := false }

def consequent (c : Context) : Context := { c with noIn := false, inBranch := true, colonAhead := true }

def alternative (c : Context) : Context := { c with inBranch := true, colonAhead := false }

end Context

/-- What an expression turned out to be, as far as the tokens after it depend on that. -/
inductive Shape
  | name (text : String)
  | arrow
  /-- An operator with one operand before it, which cannot be raised to a power. -/
  | unary
  /-- Any other operator with its operands, to which nothing can be assigned. -/
  | operation
  /-- An array or an object, and whether it could be read as a pattern. -/
  | literal (pattern : Bool)
  | other
  deriving DecidableEq, Repr

/-- Whether something may be assigned to the expression, or it may be a parameter. -/
def Shape.isTarget : Shape → Bool
  | literal pattern => pattern
  | _ => true

/-- A rule that circles pass through, with what it is told and the type of what it answers. -/
inductive Rule : Type → Type
  | expression (c : Context) : Rule Shape
  | assignment (c : Context) : Rule Shape
  /-- An expression without commas, assignments and conditions. An arrow function may begin where it
  begins, or not. -/
  | operation (c : Context) (atStart : Bool) : Rule Shape
  /-- An operand with the operators before and after it that take one operand. -/
  | operand (c : Context) : Rule Shape
  /-- The operators that bind tighter than a level, with their right operands. -/
  | operators (c : Context) (level : Nat) (left : Shape) : Rule Shape
  /-- An operand without such operators. -/
  | chain (c : Context) : Rule Shape
  /-- What `new` is applied to. -/
  | constructed (c : Context) : Rule Unit
  | type : Rule Unit
  | typeOperand : Rule Unit
  /-- What a variable or parameter may be. The answer is whether it is a name. -/
  | pattern (c : Context) : Rule Bool
  /-- A statement, which may declare something or not. -/
  | statement (c : Context) (declaring : Bool) : Rule Unit
  | item (c : Context) : Rule ItemKind

end ModuleBundler.Script
