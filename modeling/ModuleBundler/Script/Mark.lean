/-!
The punctuation marks of a script.

`Mark.scan?` reads the longest mark that a text begins with, except that an angle is always a mark of
its own: lists of types nest, and several of them may end side by side. The grammar puts the angles of a
shift or a comparison together, and a `?` with the `.` of an optional chain.
-/

namespace ModuleBundler.Script

inductive BinaryOp
  | coalesce | or | and | bitOr | bitXor | bitAnd | eq | ne | eqStrict | neStrict | lt | le | gt | ge
  | shl | shr | ushr | plus | minus | times | over | mod | power
  deriving DecidableEq, Repr

inductive AssignOp
  | plain | plus | minus | times | over | mod | power | shl | shr | ushr | bitAnd | bitOr | bitXor
  | and | or | coalesce
  deriving DecidableEq, Repr

inductive Mark
  | parenL | parenR | bracketL | bracketR | braceL | braceR | semicolon | comma | dot | ellipsis
  | colon | question | arrow | hash | atSign | bang | tilde | backtick | dollarBrace | increment | decrement
  | binary (op : BinaryOp)
  | assign (op : AssignOp)
  deriving DecidableEq, Repr

namespace Mark

/-- Every mark with its spelling, longer spellings before the shorter ones that they begin with. The
slash is left out, since what it means depends on what stands before it, and so is the mark that opens
a substitution, which occurs in templates only. -/
def spellings : List (String × Mark) :=
  [("...", ellipsis), ("===", binary .eqStrict), ("!==", binary .neStrict), ("**=", assign .power),
    ("&&=", assign .and), ("||=", assign .or), ("??=", assign .coalesce),
    ("=>", arrow), ("==", binary .eq), ("!=", binary .ne), ("&&", binary .and), ("||", binary .or),
    ("??", binary .coalesce), ("**", binary .power), ("++", increment), ("--", decrement),
    ("+=", assign .plus), ("-=", assign .minus), ("*=", assign .times), ("%=", assign .mod),
    ("&=", assign .bitAnd), ("|=", assign .bitOr), ("^=", assign .bitXor),
    ("(", parenL), (")", parenR), ("[", bracketL), ("]", bracketR), ("\x7b", braceL), ("\x7d", braceR),
    (";", semicolon), (",", comma), (".", dot), (":", colon), ("?", question), ("#", hash), ("@", atSign),
    ("!", bang), ("~", tilde), ("\x60", backtick), ("=", assign .plain), ("<", binary .lt),
    (">", binary .gt), ("+", binary .plus), ("-", binary .minus), ("*", binary .times),
    ("%", binary .mod), ("&", binary .bitAnd), ("|", binary .bitOr), ("^", binary .bitXor)]

/-- The longest mark that the text begins with, and its length. -/
def scan? (cs : List Char) : Option (Mark × Nat) :=
  (spellings.find? fun entry => entry.1.toList.isPrefixOf cs).map fun entry => (entry.2, entry.1.length)

/-- A slash that divides, alone or in an assignment, and its length. -/
def scanSlash : List Char → Mark × Nat
  | '/' :: '=' :: _ => (assign .over, 2)
  | _ => (binary .over, 1)

/-- Whether an operand may follow the mark, so that a slash after it begins a regular expression. -/
def precedesOperand : Mark → Bool
  | arrow | ellipsis | bang | parenL | bracketL | braceL | semicolon | comma | colon | dollarBrace
  | question | tilde | binary _ | assign _ => true
  | _ => false

end Mark

/-- How tightly a binary operator binds. -/
def BinaryOp.level : BinaryOp → Nat
  | .coalesce => 1 | .or => 1 | .and => 2 | .bitOr => 3 | .bitXor => 4 | .bitAnd => 5
  | .eq | .ne | .eqStrict | .neStrict => 6
  | .lt | .le | .gt | .ge => 7
  | .shl | .shr | .ushr => 8
  | .plus | .minus => 9
  | .times | .over | .mod => 10
  | .power => 11

end ModuleBundler.Script
