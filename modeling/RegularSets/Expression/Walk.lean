import RegularSets.Distinct
import RegularSets.Expression.Tree

/-!
# Compositions

A composition is the set of leaves that can come next at some point of an expression, together with
whether the expression can end there. It is found by a walk of the tree: the walk enters subtrees
downwards, comes back to operators upwards, and at an operator it follows the operator's program for
that direction. A terminal that is entered belongs to the composition. No node is visited twice in
the same direction, so that nested closures come to an end.
-/

namespace RegularSets

/-- The positions of the leaves that can come next, and whether the expression can end. -/
structure Composition where
  positions : List Nat
  reachesEnd : Bool
  deriving Repr, DecidableEq

/-- Shown as the positions between braces, with `λ` for the end. -/
def Composition.render (c : Composition) : String :=
  Text.braced (c.positions.map toString ++ if c.reachesEnd then ["λ"] else [])

/-- A step of a walk: to come to a place, or to leave the whole expression. -/
inductive Visit
  | come (place : Place) (direction : Direction)
  | finish
  deriving Repr, DecidableEq

/-- The visit after a subtree is done: upwards to the operator where the walk continues. -/
def Place.leave (p : Place) : Visit :=
  match p.following? with
  | none => .finish
  | some q => .come q .up

/-- The visit that a move makes from a place, if it has the operand that the move enters. -/
def Place.go? (p : Place) : Move → Option Visit
  | .left => p.left?.map fun q => .come q .down
  | .right => p.right?.map fun q => .come q .down
  | .next => some p.leave

/-- The position of a terminal that is entered. -/
def Place.consumed? (p : Place) : Direction → Option Nat
  | .up => none
  | .down =>
    match p.subtree with
    | .atom (.terminal _) _ i => some i
    | _ => none

/-- The visits that follow a visit of a place: nothing after entering a terminal, the program of an
operator, and otherwise on to what follows. -/
def Place.visitsAfter (p : Place) (direction : Direction) : List Visit :=
  match p.subtree with
  | .atom (.terminal _) _ _ =>
    match direction with
    | .down => []
    | .up => [p.leave]
  | .atom .emptyWord _ _ => [p.leave]
  | .modify m _ _ _ => ((Operator.modifier m).moves direction).filterMap p.go?
  | .join k _ _ _ _ => ((Operator.connective k).moves direction).filterMap p.go?

/-- What a walk has found so far. -/
structure Walk where
  /-- The visits that were made, as coded by `Walk.key`. -/
  visited : Std.ExtTreeSet Nat := ∅
  positions : List Nat := []
  reachesEnd : Bool := false

namespace Walk

/-- One number for a node and a direction. -/
def key (p : Place) : Direction → Nat
  | .down => 2 * p.subtree.number
  | .up => 2 * p.subtree.number + 1

/-- Make the pending visits and all that follow from them, at most `fuel` of them. -/
def run : Nat → List Visit → Walk → Walk
  | 0, _, w => w
  | _, [], w => w
  | fuel + 1, .finish :: pending, w => run fuel pending { w with reachesEnd := true }
  | fuel + 1, .come p direction :: pending, w =>
    if w.visited.contains (key p direction) then run fuel pending w
    else
      run fuel (p.visitsAfter direction ++ pending)
        { w with
          visited := w.visited.insert (key p direction)
          positions := (p.consumed? direction).toList ++ w.positions }

/-- The composition of what was found. -/
def composition (w : Walk) : Composition :=
  { positions := ascending w.positions, reachesEnd := w.reachesEnd }

end Walk

namespace Tree

/-- The composition that a walk finds from some visits. Every node is visited twice at most, and no
visit is followed by more than two, which bounds the walk. -/
def walkFrom (t : Tree) (visits : List Visit) : Composition :=
  (Walk.run (visits.length + 4 * t.size) visits {}).composition

/-- The composition at the beginning of the expression. -/
def initialComposition (t : Tree) : Composition :=
  t.walkFrom [.come ⟨t, []⟩ .down]

/-- The composition after one of some leaves. -/
def compositionAfter (t : Tree) (leaves : List Place) : Composition :=
  t.walkFrom (leaves.map Place.leave)

/-! ## Marked words -/

/-- The positions of the terminals of a word, in the order in which the expression reads them. -/
inductive Marks : Tree → List Nat → Prop
  | terminal (c : Char) (n i : Nat) : Marks (atom (.terminal c) n i) [i]
  | emptyWord (n i : Nat) : Marks (atom .emptyWord n i) []
  | concatenation {l r : Tree} {u v : List Nat} (p n : Nat) (left : Marks l u)
      (right : Marks r v) : Marks (join .concatenation p n l r) (u ++ v)
  | alternationLeft {l r : Tree} {u : List Nat} (p n : Nat) (left : Marks l u) :
      Marks (join .alternation p n l r) u
  | alternationRight {l r : Tree} {v : List Nat} (p n : Nat) (right : Marks r v) :
      Marks (join .alternation p n l r) v
  | starNone {d : Tree} (p n : Nat) : Marks (modify .star p n d) []
  | starMore {d : Tree} {u v : List Nat} {p n : Nat} (first : Marks d u)
      (others : Marks (modify .star p n d) v) : Marks (modify .star p n d) (u ++ v)
  | plusOne {d : Tree} {u : List Nat} (p n : Nat) (one : Marks d u) : Marks (modify .plus p n d) u
  | plusMore {d : Tree} {u v : List Nat} {p n : Nat} (first : Marks d u)
      (others : Marks (modify .plus p n d) v) : Marks (modify .plus p n d) (u ++ v)
  | optionalNone {d : Tree} (p n : Nat) : Marks (modify .optional p n d) []
  | optionalOne {d : Tree} {u : List Nat} (p n : Nat) (one : Marks d u) :
      Marks (modify .optional p n d) u

end Tree

end RegularSets
