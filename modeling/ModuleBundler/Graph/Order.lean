import ModuleBundler.Graph
import ModuleBundler.Log

namespace ModuleBundler.Graph

/-- A step of a walk through a graph. -/
inductive Visit
  | entered (key : String)
  | left (key : String)
  /-- An edge leads back to a module that is entered and not yet left. -/
  | metAgain (key : String)
  deriving DecidableEq, Repr

/-- The module that is left in a step. -/
def Visit.left? : Visit → Option String
  | left key => some key
  | _ => none

/-- The walk through the modules of a list. The modules of `path` are entered and not left, those of
`done` are left. -/
def walk (g : Graph) (path done : List String) : List String → List Visit
  | [] => []
  | key :: keys =>
    if _ : key ∈ path then .metAgain key :: g.walk path done keys
    else if _ : key ∈ g.keys then
      if key ∈ done then g.walk path done keys
      else
        let visits := .entered key :: g.walk (key :: path) done (g.edges key) ++ [.left key]
        visits ++ g.walk path (done ++ visits.filterMap Visit.left?) keys
    else g.walk path done keys
termination_by keys => (g.away path, keys.length)
decreasing_by
  · exact Prod.Lex.right _ (Nat.lt_succ_self _)
  · exact Prod.Lex.right _ (Nat.lt_succ_self _)
  · exact Prod.Lex.left _ _ (away_cons_lt ‹key ∈ g.keys› ‹key ∉ path›)
  · exact Prod.Lex.right _ (Nat.lt_succ_self _)
  · exact Prod.Lex.right _ (Nat.lt_succ_self _)

/-- The walk through the whole graph. -/
def wholeWalk (g : Graph) : List Visit := g.walk [] [] g.keys

/-- The modules in the order in which they are left. -/
def order (g : Graph) : List String := g.wholeWalk.filterMap Visit.left?

/-- What is reported when the edges of a module are followed. -/
def edgeEvents (g : Graph) (key : String) : List Event :=
  (g.unresolved key).map fun specifier => .unresolved specifier key

/-- What is reported of a step. -/
def visitEvents (g : Graph) : Visit → List Event
  | .entered key => g.edgeEvents key
  | .left _ => []
  | .metAgain key => [.cycle key]

/-- The modules in order, with what is reported of the walk. -/
def ordered (g : Graph) : Noted (List ModuleNode) :=
  ⟨g.order.filterMap g.get?, g.wholeWalk.flatMap g.visitEvents⟩

end ModuleBundler.Graph
