import RegularSets.Fault
import RegularSets.Symbol

/-!
# Threaded trees

The nodes of an expression tree stand in an arena and refer to each other by their places in it. A node
knows its operands, its parent, the node where a walk in order goes on after its subtree (its *link*), and,
if it is a leaf, its position among the leaves.

The tree grows symbol by symbol. An operand fills the open place at the right end. An operator goes down
the right side until it comes to an operand or to an operator of higher priority; it takes the place of
that node (`Arena.wrap`) and has it as its left operand. A group is read into a tree of its own. When it
closes, the priorities of its operators are raised above those of all operators outside, and its root is
hung below an operator, or, if the tree around it has no filled node, its content moves into the empty one
(`Arena.adopt`). When all is read, the links and the positions are set.

Priorities are natural numbers here. A program that keeps them in 32 bits agrees as long as no operator is
inside more than (2 ^ 32 - 4) / 10 groups, about 4.3e8 of them.

The nodes of an arena could refer to each other in a circle, so every loop along references has fuel: the
number of nodes, which is enough in a tree. A reference behind the last node finds an empty node, and a
change there changes nothing; in a tree there is no such reference. The loops over a subtree take a node
before its left and its right child. Those that change nodes change each node once, so for them any order
does.
-/

namespace RegularSets

/-- A node of a tree. It refers to other nodes by their places in the arena. -/
structure Node where
  /-- What stands at the node; nothing as long as it is not filled. -/
  data : Option Symbol := none
  /-- The priority of an operator, raised by 10 for each group around it. -/
  priority : Nat := 0
  left : Option Nat := none
  right : Option Nat := none
  parent : Option Nat := none
  /-- Where a walk in order goes on after the subtree; nowhere at the end of the expression. -/
  link : Option Nat := none
  /-- The position of a leaf, from 1 on. -/
  index : Option Nat := none
  deriving Repr, DecidableEq

namespace Node

def isOperator (n : Node) : Bool :=
  match n.data with
  | some (.operator _) => true
  | _ => false

/-- Does a new operator go past the node, down its right side? -/
def isPassedBy (op : Operator) (n : Node) : Bool :=
  n.isOperator && n.priority ≤ op.precedence

def isLeaf (n : Node) : Bool :=
  n.left.isNone && n.right.isNone

/-- The left child and the right child, as far as they are there. -/
def children (n : Node) : List Nat :=
  n.left.toList ++ n.right.toList

/-- Is the node filled, and does it have the children that its symbol asks for? -/
def isComplete (n : Node) : Bool :=
  match n.data with
  | none => false
  | some (.operator op) => n.left.isSome && (n.right.isSome == decide (op.arity = 2))
  | some (.atom _) => n.isLeaf

/-- The sign of the symbol, or a question mark if the node is not filled. -/
def sign (n : Node) : Char :=
  match n.data with
  | none => '?'
  | some s => s.sign

end Node

structure Arena where
  nodes : Array Node := #[]
  deriving Repr, DecidableEq

namespace Arena

variable (a : Arena)

/-- The number of nodes. -/
def size : Nat :=
  a.nodes.size

/-- The node at a place. Behind the last one stand empty nodes. -/
def node (id : Nat) : Node :=
  a.nodes.getD id {}

/-! ## Changing nodes -/

def update (id : Nat) (f : Node → Node) : Arena :=
  { nodes := a.nodes.modify id f }

/-- A new empty node. -/
def newNode : Nat × Arena :=
  (a.size, { nodes := a.nodes.push {} })

/-- A new empty node as the right child of a node. -/
def newRightChild (id : Nat) : Nat × Arena :=
  let (child, a) := a.newNode
  (child, (a.update child fun n => { n with parent := some id }).update id
    fun n => { n with right := some child })

def setAtom (id : Nat) (x : Atom) : Arena :=
  a.update id fun n => { n with data := some (.atom x) }

def setOperator (id : Nat) (op : Operator) : Arena :=
  a.update id fun n => { n with data := some (.operator op), priority := op.precedence }

/-- A new operator takes the place of a node, which becomes its left child. -/
def wrap (id : Nat) (op : Operator) : Arena :=
  let parent := (a.node id).parent
  let (w, a) := a.newNode
  let a := (a.setOperator w op).update w fun n => { n with left := some id, parent }
  let a := match parent with
    | none => a
    | some p => a.update p fun n =>
      if n.left = some id then { n with left := some w } else { n with right := some w }
  a.update id fun n => { n with parent := some w }

/-- Move the content of a node into an empty one. Its children get the other node as their parent, and
the node itself is left empty. -/
def adopt (id sub : Nat) : Arena :=
  let taken := a.node sub
  let a := (a.update sub fun _ => {}).update id fun n =>
    { n with data := taken.data, priority := taken.priority, left := taken.left, right := taken.right,
             index := taken.index }
  taken.children.foldl (fun a child => a.update child fun n => { n with parent := some id }) a

/-! ## Loops -/

/-- Go right from a node as long as nodes may be passed. -/
def descend (pass : Node → Bool) : Nat → Nat → Nat
  | 0, id => id
  | fuel + 1, id =>
    match (a.node id).right with
    | none => id
    | some r => if pass (a.node id) then descend pass fuel r else id

/-- Go up from a node. -/
def ascend : Nat → Nat → Nat
  | 0, id => id
  | fuel + 1, id =>
    match (a.node id).parent with
    | none => id
    | some p => ascend fuel p

/-- The nodes of the subtrees on a stack with their depths, each before its children. -/
def preorder : Nat → List (Nat × Nat) → List (Nat × Nat)
  | 0, _ => []
  | _, [] => []
  | fuel + 1, (id, depth) :: stack =>
    (id, depth) :: preorder fuel ((a.node id).children.map (·, depth + 1) ++ stack)

/-- The last node of a subtree in order. -/
def rightmost (id : Nat) : Nat :=
  a.descend (fun _ => true) a.size id

/-- The topmost ancestor. -/
def rootOf (id : Nat) : Nat :=
  a.ascend a.size id

/-- The nodes of a subtree, each before its children. -/
def subtree (id : Nat) : List Nat :=
  (a.preorder a.size [(id, 0)]).map (·.1)

/-- The leaves of a subtree from left to right. -/
def leaves (id : Nat) : List Nat :=
  (a.subtree id).filter fun i => (a.node i).isLeaf

/-! ## Reading -/

/-- Put an operand at a node where the way right ends. -/
def pushAtomAt (id : Nat) (x : Atom) : Except RegexFault Arena :=
  match (a.node id).data with
  | none => .ok (a.setAtom id x)
  | some (.operator (.connective _)) =>
    let (child, a) := a.newRightChild id
    .ok (a.setAtom child x)
  | some (.operator (.modifier _)) => .error .operandAfterModifier
  | some (.atom _) => .error .missingOperator

/-- Put an operator at a node where the way right ends or where a node binds tighter. -/
def pushOperatorAt (id : Nat) (op : Operator) : Except RegexFault Arena :=
  let n := a.node id
  match n.data, n.right with
  | none, _ => .ok (a.setOperator id op)
  | some (.operator (.connective _)), none =>
    let (child, a) := a.newRightChild id
    .ok (a.setOperator child op)
  | some _, _ =>
    if n.isPassedBy op then .error .misplacedModifier else .ok (a.wrap id op)

/-- Put a group at a node where the way right ends. -/
def pushSubtreeAt (id sub : Nat) : Except RegexFault Arena :=
  match (a.node id).data with
  | none => .ok (a.adopt id sub)
  | some (.operator (.connective _)) =>
    .ok ((a.update id fun n => { n with right := some sub }).update sub
      fun n => { n with parent := some id })
  | some (.operator (.modifier _)) => .error .operandAfterModifier
  | some (.atom _) => .error .missingOperator

/-- Put an operand into the open place at the right end. -/
def pushAtom (id : Nat) (x : Atom) : Except RegexFault Arena :=
  a.pushAtomAt (a.descend Node.isOperator a.size id) x

/-- Put an operator into the right side. It fills an empty node or the open place after a binary operator,
and otherwise takes the place of the first node that binds tighter. -/
def pushOperator (id : Nat) (op : Operator) : Except RegexFault Arena :=
  a.pushOperatorAt (a.descend (Node.isPassedBy op) a.size id) op

def push (id : Nat) : Symbol → Except RegexFault Arena
  | .atom x => a.pushAtom id x
  | .operator op => a.pushOperator id op

/-- Put a complete group into the open place at the right end. -/
def pushSubtree (id sub : Nat) : Except RegexFault Arena :=
  a.pushSubtreeAt (a.descend Node.isOperator a.size id) sub

/-- Raise the priority of every operator of a subtree. -/
def changePriority (id amount : Nat) : Arena :=
  (a.subtree id).foldl (fun a i => a.update i fun n =>
    if n.isOperator then { n with priority := n.priority + amount } else n) a

/-- Does every node of a subtree have all that it needs? -/
def isValidSubtree (id : Nat) : Bool :=
  (a.subtree id).all fun i => (a.node i).isComplete

/-- Read on with the root of a group and the roots of the groups around it, the nearest first. -/
def readOn (a : Arena) : List Char → Nat → List Nat → Except RegexFault (Nat × Arena)
  | [], group, outer =>
    if !outer.isEmpty then .error .unbalancedParentheses
    else if !a.isValidSubtree group then .error .incompleteExpression
    else .ok (group, a)
  | c :: rest, group, outer =>
    if c = openSign then
      let (id, a) := a.newNode
      readOn a rest id (group :: outer)
    else if c = closeSign then
      match outer with
      | [] => .error .unbalancedParentheses
      | around :: outer =>
        if a.isValidSubtree group then do
          let a ← (a.changePriority group groupBoost).pushSubtree around group
          readOn a rest around outer
        else .error .incompleteGroup
    else
      match Symbol.ofSign? c with
      | none => .error .unexpectedCharacter
      | some s => do
        let a ← a.push group s
        readOn a rest (a.rootOf group) outer

/-! ## Links and positions -/

/-- Set the link that leads to a node: it is that of the last node in the left subtree. -/
def setLink (id : Nat) : Arena :=
  match (a.node id).left with
  | none => a
  | some l => a.update (a.rightmost l) fun n => { n with link := some id }

def setLinks (root : Nat) : Arena :=
  (a.subtree root).foldl setLink a

def setIndex (leaf : Nat × Nat) : Arena :=
  a.update leaf.1 fun n => { n with index := some leaf.2 }

def setIndexes (root : Nat) : Arena :=
  ((a.leaves root).zipIdx 1).foldl setIndex a

end Arena

/-- A tree in an arena with the text it was read from. The arena may also hold nodes that are no longer
part of the tree. -/
structure ThreadedTree where
  text : List Char
  arena : Arena
  root : Nat
  deriving Repr, DecidableEq

namespace ThreadedTree

/-- Read an expression in which all concatenations are written. -/
def read (text : List Char) : Except Fault ThreadedTree :=
  let (group, a) := ({} : Arena).newNode
  match a.readOn text group [] with
  | .error cause => .error (.invalidRegex (String.ofList text) cause)
  | .ok (root, a) => .ok { text, arena := (a.setLinks root).setIndexes root, root }

variable (t : ThreadedTree)

/-- The nodes of the tree, each before its children. -/
def nodes : List Nat :=
  t.arena.subtree t.root

/-- The leaves from left to right. -/
def leaves : List Nat :=
  t.arena.leaves t.root

/-- The leaf at a position. -/
def nodeAtPosition? (position : Nat) : Option Nat :=
  t.leaves.find? fun id => (t.arena.node id).index = some position

/-- A node is shown with the sign of its link, indented by its depth. -/
def renderNode (id depth : Nat) : String :=
  let n := t.arena.node id
  let link := match n.link with
    | none => "λ"
    | some l => String.singleton (t.arena.node l).sign
  String.ofList (List.replicate (2 * depth) ' ') ++ String.singleton n.sign ++ " (" ++ link ++ ")"

/-- One line for each node. -/
def render : String :=
  Text.lines ((t.arena.preorder t.arena.size [(t.root, 0)]).map fun (id, depth) =>
    t.renderNode id depth)

end ThreadedTree

end RegularSets
