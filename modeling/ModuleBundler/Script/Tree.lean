import ModuleBundler.Script.Token

/-!
Syntax trees that keep every token.

The leaves of a tree are the tokens it was built from, in order (`Tree.leaves`), so a tree knows which
part of the source it covers. Inner nodes say what the tokens form.
-/

namespace ModuleBundler.Script

inductive Kind
  | item | statement | block | variableDeclaration | declarator | function | classBody | member | parameters
  | sequence | assignment | conditional | binary | unary | update | arrow | assertion
  | call | superCall | arguments | access | construction | parenthesized | array | object | property
  | template | classValue | functionValue
  | pattern | type | signature
  deriving DecidableEq, Repr

inductive Tree
  | leaf (token : Token)
  | node (kind : Kind) (children : List Tree)
  deriving Repr

namespace Tree

mutual

def decEq : (a b : Tree) → Decidable (a = b)
  | leaf s, leaf t => decidable_of_iff (s = t) (by rw [leaf.injEq])
  | node k cs, node l ds =>
    have := decEqAll cs ds
    decidable_of_iff (k = l ∧ cs = ds) (by rw [node.injEq])
  | leaf _, node .. | node .., leaf _ => isFalse nofun

def decEqAll : (as bs : List Tree) → Decidable (as = bs)
  | [], [] => isTrue rfl
  | a :: as, b :: bs =>
    have := decEq a b
    have := decEqAll as bs
    decidable_of_iff (a = b ∧ as = bs) (by rw [List.cons.injEq])
  | [], _ :: _ | _ :: _, [] => isFalse nofun

end

instance : DecidableEq Tree := decEq

mutual

/-- The tokens of a tree, in the order of the source. -/
def leaves : Tree → List Token
  | leaf token => [token]
  | node _ children => leavesOf children

/-- The tokens of a row of trees. -/
def leavesOf : List Tree → List Token
  | [] => []
  | tree :: trees => leaves tree ++ leavesOf trees

end

theorem leavesOf_append (front back : List Tree) : leavesOf (front ++ back) = leavesOf front ++ leavesOf back := by
  induction front with
  | nil => simp [leavesOf]
  | cons tree trees ih => simp [leavesOf, ih]

theorem leavesOf_eq_flatMap (trees : List Tree) : leavesOf trees = trees.flatMap leaves := by
  induction trees with
  | nil => rfl
  | cons tree trees ih => rw [leavesOf, ih, List.flatMap_cons]

/-- Where the tree begins in the source. -/
def start (tree : Tree) : Nat :=
  match tree.leaves.head? with
  | some token => token.start
  | none => 0

/-- Where the tree ends in the source. -/
def stop (tree : Tree) : Nat :=
  match tree.leaves.getLast? with
  | some token => token.stop
  | none => 0

mutual

/-- The nodes of a kind in a tree, an outer node before those inside it. -/
def nodesOf (kind : Kind) : Tree → List Tree
  | leaf _ => []
  | node k children =>
    if k = kind then node k children :: nodesOfAll kind children else nodesOfAll kind children

/-- The nodes of a kind in a row of trees. -/
def nodesOfAll (kind : Kind) : List Tree → List Tree
  | [] => []
  | tree :: trees => nodesOf kind tree ++ nodesOfAll kind trees

end

mutual

/-- Whether each call of the superclass in a tree begins with a token. -/
def isHeaded : Tree → Bool
  | leaf _ => true
  | node kind children =>
    (kind ≠ .superCall || (children.head?.any fun first => first matches leaf _)) && areHeaded children

/-- Whether each call of the superclass in a row of trees begins with a token. -/
def areHeaded : List Tree → Bool
  | [] => true
  | tree :: trees => isHeaded tree && areHeaded trees

end

theorem areHeaded_append (front back : List Tree) :
    areHeaded (front ++ back) = (areHeaded front && areHeaded back) := by
  induction front with
  | nil => simp [areHeaded]
  | cons tree trees ih => simp [areHeaded, ih, Bool.and_assoc]

theorem areHeaded_reverse (trees : List Tree) : areHeaded trees.reverse = areHeaded trees := by
  induction trees with
  | nil => rfl
  | cons tree trees ih => simp [areHeaded_append, areHeaded, ih, Bool.and_comm]

end Tree

end ModuleBundler.Script
