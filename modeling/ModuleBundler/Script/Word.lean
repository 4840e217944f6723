/-!
The reserved words of a script.

A word that is reserved everywhere is a `Keyword`. Words such as `of`, `async` or `type`, which have a
meaning in some places only, are names like any other, and the grammar asks for their spelling.
-/

namespace ModuleBundler.Script

inductive Keyword
  | await | break_ | case_ | catch_ | class_ | const_ | continue_ | debugger | default_ | delete
  | do_ | else_ | export_ | extends_ | false_ | finally_ | for_ | function | if_ | import_ | in_
  | instanceof | let_ | new_ | null_ | return_ | super_ | switch_ | this_ | throw_ | true_ | try_
  | typeof | var_ | void_ | while_ | with_ | yield
  deriving DecidableEq, Repr

namespace Keyword

def spelling : Keyword → String
  | await => "await" | break_ => "break" | case_ => "case" | catch_ => "catch" | class_ => "class"
  | const_ => "const" | continue_ => "continue" | debugger => "debugger" | default_ => "default"
  | delete => "delete" | do_ => "do" | else_ => "else" | export_ => "export" | extends_ => "extends"
  | false_ => "false" | finally_ => "finally" | for_ => "for" | function => "function" | if_ => "if"
  | import_ => "import" | in_ => "in" | instanceof => "instanceof" | let_ => "let" | new_ => "new"
  | null_ => "null" | return_ => "return" | super_ => "super" | switch_ => "switch" | this_ => "this"
  | throw_ => "throw" | true_ => "true" | try_ => "try" | typeof => "typeof" | var_ => "var"
  | void_ => "void" | while_ => "while" | with_ => "with" | yield => "yield"

def all : List Keyword :=
  [await, break_, case_, catch_, class_, const_, continue_, debugger, default_, delete, do_, else_,
    export_, extends_, false_, finally_, for_, function, if_, import_, in_, instanceof, let_, new_,
    null_, return_, super_, switch_, this_, throw_, true_, try_, typeof, var_, void_, while_, with_,
    yield]

/-- The keyword with this spelling, if there is one. -/
def ofSpelling? (text : String) : Option Keyword :=
  all.find? fun k => k.spelling == text

/-- Whether an operand may follow the keyword, so that a slash after it begins a regular expression. -/
def precedesOperand : Keyword → Bool
  | await | case_ | default_ | do_ | else_ | return_ | throw_ | new_ | extends_ | yield | in_
  | instanceof | typeof | void_ | delete => true
  | _ => false

end Keyword

/-- The names that a module may not spell with an escape, beside the keywords. -/
def guardedNames : List String :=
  ["enum", "implements", "package", "protected", "interface", "private", "public"]

end ModuleBundler.Script
