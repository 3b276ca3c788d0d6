import RegularSets.Expression.Tree

/-!
# Drafts

Reading an expression without an arena: a draft is what is left of the nodes of a group when their places
and all references but those to operands are forgotten. An operand fills the open place at the right end.
An operator goes down the right side until it comes to an operand or to an operator of higher priority, and
takes that as its left operand; this makes tighter operators sit lower and equal ones associate to the
right.

A group is read into a draft of its own. When it closes, the priorities of its operators are raised above
those of all operators outside, so that no later operator can reach into it. As in the arena, there is no bound on
priorities.

Reading into the arena and reading on drafts agree (`ExpressionTree.read_eq`). What an expression is read
into is told from its draft.
-/

namespace RegularSets

/-- A tree of operators and operands with holes where an operand is missing. -/
inductive Draft
  | hole
  | atom (a : Atom)
  | modify (m : Modifier) (priority : Nat) (operand : Draft)
  | join (k : Connective) (priority : Nat) (left right : Draft)
  deriving Repr, DecidableEq

namespace Draft

/-- An operator over a left operand. -/
def ofOperator (op : Operator) (operand : Draft) : Draft :=
  match op with
  | .connective k => join k k.precedence operand hole
  | .modifier m => modify m m.precedence operand

/-- Put an operand into the open place at the right end. -/
def insert (operand : Draft) : Draft → Except RegexFault Draft
  | hole => .ok operand
  | atom _ => .error .missingOperator
  | modify _ _ _ => .error .operandAfterModifier
  | join k p l r => do .ok (join k p l (← insert operand r))

/-- Put an operator into the right side. After a binary operator that lacks its right operand, the
new one takes the open place. -/
def insertOperator (op : Operator) : Draft → Except RegexFault Draft
  | hole => .ok (ofOperator op hole)
  | atom a => .ok (ofOperator op (atom a))
  | modify m p d =>
    if op.precedence < p then .ok (ofOperator op (modify m p d)) else .error .misplacedModifier
  | join k p l hole => .ok (join k p l (ofOperator op hole))
  | join k p l r =>
    if op.precedence < p then .ok (ofOperator op (join k p l r))
    else do .ok (join k p l (← r.insertOperator op))

/-- Put a symbol into the right side. -/
def push (d : Draft) : Symbol → Except RegexFault Draft
  | .atom a => insert (atom a) d
  | .operator op => d.insertOperator op

/-- Is every operand there? -/
def isComplete : Draft → Bool
  | hole => false
  | atom _ => true
  | modify _ _ d => d.isComplete
  | join _ _ l r => l.isComplete && r.isComplete

/-- Raise the priority of every operator. -/
def raise (amount : Nat) : Draft → Draft
  | hole => hole
  | atom a => atom a
  | modify m p d => modify m (p + amount) (d.raise amount)
  | join k p l r => join k (p + amount) (l.raise amount) (r.raise amount)

/-- Read on with a draft and the drafts of the groups around it, the nearest first. -/
def readOn : List Char → Draft → List Draft → Except RegexFault Draft
  | [], d, outer =>
    if !outer.isEmpty then .error .unbalancedParentheses
    else if !d.isComplete then .error .incompleteExpression
    else .ok d
  | c :: rest, d, outer =>
    if c = openSign then readOn rest hole (d :: outer)
    else if c = closeSign then
      match outer with
      | [] => .error .unbalancedParentheses
      | around :: outer =>
        if d.isComplete then do readOn rest (← insert (d.raise groupBoost) around) outer
        else .error .incompleteGroup
    else
      match Symbol.ofSign? c with
      | none => .error .unexpectedCharacter
      | some s => do readOn rest (← d.push s) outer

/-- Read an expression in which all concatenations are written. -/
def read (text : List Char) : Except RegexFault Draft :=
  readOn text hole []

/-- The number of operators and operands. -/
def size : Draft → Nat
  | hole => 0
  | atom _ => 1
  | modify _ _ d => d.size + 1
  | join _ _ l r => l.size + r.size + 1

/-- The number of operands at the leaves. -/
def numAtoms : Draft → Nat
  | hole => 0
  | atom _ => 1
  | modify _ _ d => d.numAtoms
  | join _ _ l r => l.numAtoms + r.numAtoms

/-- Number a complete draft, its root with `number` and its first leaf with `position`. -/
def toTree? (number position : Nat) : Draft → Option Tree
  | hole => none
  | atom a => some (.atom a number position)
  | modify m p d => do some (.modify m p number (← d.toTree? (number + 1) position))
  | join k p l r => do
    let left ← l.toTree? (number + 1) position
    let right ← r.toTree? (number + 1 + l.size) (position + l.numAtoms)
    some (.join k p number left right)

end Draft

end RegularSets
