import ModuleBundler.Graph.Order

namespace ModuleBundler.Graph

/-- A module as it stands in the tree. -/
inductive Outline
  /-- A module with the modules that it imports. -/
  | opened (key : String) (imports : List Outline)
  /-- A module that stands above itself. -/
  | repeated (key : String)
  deriving Repr

/-- The modules of a list as they stand below the modules of `above`. -/
def outline (g : Graph) (above : List String) : List String → List Outline
  | [] => []
  | key :: keys =>
    if _ : key ∈ above then .repeated key :: g.outline above keys
    else if _ : key ∈ g.keys then
      .opened key (g.outline (key :: above) (g.edges key)) :: g.outline above keys
    else .opened key [] :: g.outline above keys
termination_by keys => (g.away above, keys.length)
decreasing_by
  · exact Prod.Lex.right _ (Nat.lt_succ_self _)
  · exact Prod.Lex.left _ _ (away_cons_lt ‹key ∈ g.keys› ‹key ∉ above›)
  · exact Prod.Lex.right _ (Nat.lt_succ_self _)
  · exact Prod.Lex.right _ (Nat.lt_succ_self _)

/-- The whole tree: it begins with the modules that no module imports. -/
def wholeOutline (g : Graph) : List Outline := g.outline [] g.roots

namespace Outline

mutual

/-- The modules that are opened, in the order of the tree. -/
def openedKeys : Outline → List String
  | opened key imports => key :: openedKeysOf imports
  | repeated _ => []

def openedKeysOf : List Outline → List String
  | [] => []
  | entry :: entries => openedKeys entry ++ openedKeysOf entries

end

/-- The module of an entry, with the mark of one that stands above itself. -/
def title (label : String → String) : Outline → String
  | opened key _ => label key
  | repeated key => label key ++ " (∞ -> " ++ key ++ ")"

/-- How an entry is joined to the one it stands below. -/
def branch (isLast : Bool) : String := if isLast then "└── " else "├── "

/-- What stands under a branch, in front of what is below the entry. -/
def stem (isLast : Bool) : String := if isLast then "    " else "│   "

mutual

/-- The lines below the title of an entry. Each begins with `margin`. -/
def linesBelow (label : String → String) (margin : String) : Outline → List String
  | opened _ imports => branchLines label margin imports
  | repeated _ => []

/-- The lines of the entries that stand below one module. -/
def branchLines (label : String → String) (margin : String) : List Outline → List String
  | [] => []
  | entry :: entries =>
    let isLast := entries.isEmpty
    (margin ++ branch isLast ++ entry.title label) :: linesBelow label (margin ++ stem isLast) entry ++
      branchLines label margin entries

end

/-- The lines of an entry that stands below no other. -/
def lines (label : String → String) (entry : Outline) : List String :=
  entry.title label :: linesBelow label "" entry

end Outline

/-- How a module is shown: by its path and, if `withLocation`, by where its file was found. -/
def label (g : Graph) (withLocation : Bool) (key : String) : String :=
  match withLocation, g.get? key with
  | true, some node => key ++ " " ++ node.file.location
  | _, _ => key

/-- The tree as a text. -/
def outlineText (g : Graph) (withLocation : Bool) : String :=
  String.join ((g.wholeOutline.flatMap (Outline.lines (g.label withLocation))).map (· ++ "\n"))

/-- What is reported when the modules that no module imports are looked for. -/
def rootEvents (g : Graph) : List Event := g.keys.flatMap g.edgeEvents

/-- The tree as a text, with what is reported when it is drawn. -/
def drawn (g : Graph) (withLocation : Bool) : Noted String :=
  ⟨g.outlineText withLocation,
    g.rootEvents ++ (Outline.openedKeysOf g.wholeOutline).flatMap g.edgeEvents⟩

end ModuleBundler.Graph
