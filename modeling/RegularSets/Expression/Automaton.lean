import RegularSets.Automaton.Builder
import RegularSets.Automaton.Decide
import RegularSets.Expression.Regex
import RegularSets.Expression.Walk
import RegularSets.Queue

/-!
# The automaton of an expression

The states are the compositions that can be reached from the beginning of the expression; a symbol
leads from one to the composition after all its leaves with that symbol. They are found breadth
first, with symbols in increasing order, and named in the order of discovery.
-/

namespace RegularSets

/-- The symbol of a leaf that is a terminal. -/
def Place.terminal? (p : Place) : Option Char :=
  match p.subtree with
  | .atom (.terminal c) _ _ => some c
  | _ => none

namespace Composition

/-- The leaves at the positions of a composition; the leaf at position `i` stands at place `i - 1`. -/
def leavesIn (leaves : Array Place) (c : Composition) : List Place :=
  c.positions.filterMap fun i => leaves[i - 1]?

/-- The compositions that symbols lead to, in increasing order of symbols. -/
def successors (c : Composition) (root : Tree) (leaves : Array Place) :
    List (Char × Composition) :=
  let places := c.leavesIn leaves
  (ascending (places.filterMap Place.terminal?)).map fun symbol =>
    (symbol, root.compositionAfter (places.filter fun p => p.terminal? = some symbol))

end Composition

namespace ExpressionTree

variable (t : ExpressionTree)

/-- All compositions that can be reached, in the order of discovery. There is one for each set of
leaves and each way of ending at most. -/
def compositions : List Composition :=
  let leaves := t.leaves.toArray
  Queue.explore (fun c => (c.successors t.root leaves).map (·.2)) (Nat.pow 2 (t.leaves.length + 1))
    (Queue.ofList [t.root.initialComposition])

/-- The builder of the automaton. -/
def builder : Builder Composition :=
  let leaves := t.leaves.toArray
  t.compositions.foldl (fun b c =>
    let b := if c.reachesEnd then b.markFinal c else b
    (c.successors t.root leaves).foldl (fun b (symbol, next) => b.addTransition c symbol next) b)
    (Builder.start t.root.initialComposition)

/-- The automaton of the expression, canonically named. -/
def toAutomaton : Automaton :=
  t.builder.build .canonical

end ExpressionTree

namespace Regex

/-- The automaton of an expression, unless it has a fault. -/
def toAutomaton (r : Regex) : Except Fault Automaton := do
  .ok (← r.toTree).toAutomaton

/-- Do two expressions stand for the same words? -/
def isEquivalentTo (r s : Regex) : Except Fault Bool := do
  let a ← r.toAutomaton
  let b ← s.toAutomaton
  .ok (a.isEquivalentTo b)

end Regex

end RegularSets
