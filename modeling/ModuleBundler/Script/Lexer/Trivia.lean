import ModuleBundler.Text.Blank

/-!
What stands between tokens: white space and comments.

A comment runs from two slashes to the end of the line, or from slash and star to star and slash. The
two arrows of page markup begin a line comment too: `<!--` anywhere, `-->` where nothing but comments
and white space stands before it on its line. So do the marks that an unfinished merge leaves at the
beginning of a line.
-/

namespace ModuleBundler.Script.Lexer

inductive TriviaMode
  | between
  | line
  | block

/-- The marks of an unfinished merge: seven angles and a space, or seven equals signs. -/
def isMergeMark (cs : List Char) : Bool :=
  "<<<<<<< ".toList.isPrefixOf cs || ">>>>>>> ".toList.isPrefixOf cs || "=======".toList.isPrefixOf cs

/-- Number of characters of the white space and comments that the text begins with, and whether a line
ends in them or `broken` says that it has ended before. There is no answer for a block comment without
an end. -/
def trivia : TriviaMode → (broken : Bool) → List Char → Option (Nat × Bool)
  | .block, _, [] => none
  | _, broken, [] => some (0, broken)
  | .block, broken, '*' :: '/' :: rest => further 2 (trivia .between broken rest)
  | .block, broken, c :: rest => further 1 (trivia .block (broken || Text.isLineBreak c) rest)
  | .line, broken, c :: rest =>
    if Text.isLineBreak c then further 1 (trivia .between true rest)
    else further 1 (trivia .line broken rest)
  | .between, broken, '/' :: '/' :: rest => further 2 (trivia .line broken rest)
  | .between, broken, '/' :: '*' :: rest => further 2 (trivia .block broken rest)
  | .between, broken, '<' :: '!' :: '-' :: '-' :: rest => further 4 (trivia .line broken rest)
  | .between, true, '-' :: '-' :: '>' :: rest => further 3 (trivia .line true rest)
  | .between, broken, c :: rest =>
    if Text.isScriptBlank c then further 1 (trivia .between (broken || Text.isLineBreak c) rest)
    else if broken && isMergeMark (c :: rest) then further 1 (trivia .line true rest)
    else some (0, broken)
where
  further (n : Nat) (found : Option (Nat × Bool)) : Option (Nat × Bool) :=
    found.map fun found => (found.1 + n, found.2)

/-- Number of characters of a first line that begins with `#!`. -/
def hashBang : List Char → Nat
  | '#' :: '!' :: rest => 2 + (rest.takeWhile fun c => !Text.isLineBreak c).length
  | _ => 0

end ModuleBundler.Script.Lexer
