import RegularSets.Expression.Arena
import RegularSets.Expression.Syntax

/-!
# Expression trees

The tree of an expression, with its nodes numbered in preorder from 0 and its leaves numbered from
left to right from 1; the number of a leaf is its *position*. It is what is left of a threaded tree when
the arena is forgotten (`Arena.tree?`).

A walk of the tree never goes back up step by step: each place knows where the walk continues once
its subtree is done, namely at the nearest operator above it that was entered through the left
operand. `Place.returns` lists these operators. The link of a node without right operand is that
operator; a node with a right operand is left through the rightmost node below it.
-/

namespace RegularSets

inductive Tree
  | atom (a : Atom) (number position : Nat)
  | modify (m : Modifier) (priority number : Nat) (operand : Tree)
  | join (k : Connective) (priority number : Nat) (left right : Tree)
  deriving Repr, DecidableEq

namespace Tree

def number : Tree → Nat
  | atom _ n _ => n
  | modify _ _ n _ => n
  | join _ _ n _ _ => n

def symbol : Tree → Symbol
  | atom a _ _ => .atom a
  | modify m _ _ _ => .operator (.modifier m)
  | join k _ _ _ _ => .operator (.connective k)

/-- The priority of an operator; operands have none and count as 0. -/
def priority : Tree → Nat
  | atom _ _ _ => 0
  | modify _ p _ _ => p
  | join _ p _ _ _ => p

/-- The position of a leaf. -/
def position? : Tree → Option Nat
  | atom _ _ i => some i
  | _ => none

def isLeaf (t : Tree) : Bool :=
  t.position?.isSome

/-- The number of nodes. -/
def size : Tree → Nat
  | atom _ _ _ => 1
  | modify _ _ _ d => d.size + 1
  | join _ _ _ l r => l.size + r.size + 1

/-- The expression without numbers and priorities. -/
def expression : Tree → Expression
  | atom a _ _ => .atom a
  | modify m _ _ d => .modify m d.expression
  | join k _ _ l r => .join k l.expression r.expression

/-- The node at the right end. -/
def rightmost : Tree → Tree
  | join _ _ _ _ r => r.rightmost
  | t => t

end Tree

/-! ## Places -/

/-- A subtree together with the operators that a walk comes back to after it, the nearest first. -/
structure Place where
  subtree : Tree
  returns : List Tree
  deriving Repr, DecidableEq

namespace Place

/-- The left or only operand. -/
def left? (p : Place) : Option Place :=
  match p.subtree with
  | .atom _ _ _ => none
  | .modify _ _ _ d => some ⟨d, p.subtree :: p.returns⟩
  | .join _ _ _ l _ => some ⟨l, p.subtree :: p.returns⟩

/-- The right operand of a binary operator. After it the walk continues where it would after the
operator. -/
def right? (p : Place) : Option Place :=
  match p.subtree with
  | .join _ _ _ _ r => some ⟨r, p.returns⟩
  | _ => none

/-- Where a walk continues after the subtree; nowhere at the end of the expression. -/
def following? (p : Place) : Option Place :=
  match p.returns with
  | [] => none
  | t :: rest => some ⟨t, rest⟩

/-- The node at the right end of the subtree. -/
def rightmost (p : Place) : Place :=
  { p with subtree := p.subtree.rightmost }

/-- The link of a node that has no right operand: where a walk continues after it. -/
def link? (p : Place) : Option Place :=
  if p.right?.isSome then none else p.following?

end Place

/-- All places of a tree in preorder. -/
def Tree.places (returns : List Tree) (t : Tree) : List Place :=
  ⟨t, returns⟩ ::
    match t with
    | atom _ _ _ => []
    | modify _ _ _ d => d.places (t :: returns)
    | join _ _ _ l r => l.places (t :: returns) ++ r.places returns

/-- The places of the leaves from left to right. -/
def Tree.leafPlaces (t : Tree) (returns : List Tree) : List Place :=
  (t.places returns).filter fun p => p.subtree.isLeaf

/-! ## The tree of an expression -/

/-- The tree below a node with its nodes numbered from `number` on, unless something is missing. -/
def Arena.tree? (a : Arena) : Nat → Nat → Nat → Option Tree
  | 0, _, _ => none
  | fuel + 1, number, id =>
    let n := a.node id
    match n.data with
    | none => none
    | some (.atom x) => do some (.atom x number (← n.index))
    | some (.operator (.modifier m)) => do
      some (.modify m n.priority number (← a.tree? fuel (number + 1) (← n.left)))
    | some (.operator (.connective k)) => do
      let left ← a.tree? fuel (number + 1) (← n.left)
      some (.join k n.priority number left (← a.tree? fuel (number + 1 + left.size) (← n.right)))

/-- A tree with the text it was read from. -/
structure ExpressionTree where
  text : List Char
  root : Tree
  deriving Repr, DecidableEq

namespace ExpressionTree

/-- Read an expression in which all concatenations are written. -/
def read (text : List Char) : Except Fault ExpressionTree := do
  let t ← ThreadedTree.read text
  match t.arena.tree? t.arena.size 0 t.root with
  | none => .error (.invalidRegex (String.ofList text) .incompleteExpression)
  | some root => .ok { text, root }

/-- The places of the leaves from left to right. -/
def leaves (t : ExpressionTree) : List Place :=
  t.root.leafPlaces []

end ExpressionTree

end RegularSets
