import RegularSets.Automaton.Minimize

/-!
# Decisions

Questions about the whole language of an automaton: is it empty, does it contain another one, are two
of them equal, is it infinite?
-/

namespace RegularSets

/-- How many words an automaton accepts. -/
inductive LanguageSize
  | empty
  | finite
  | infinite
  deriving Repr, DecidableEq

/-- A state with the targets it can go to. -/
abbrev Neighbours := State × List State

/-- Drop the states without a target, and with them the transitions into them. -/
def stripLeaves (graph : List Neighbours) : List Neighbours :=
  let leaves := (graph.filter fun (_, ts) => ts.isEmpty).map (·.1)
  (graph.filter fun (_, ts) => !ts.isEmpty).map fun (s, ts) =>
    (s, ts.filter fun t => !(leaves.contains t))

/-- Strip leaves at most `fuel` times. A round that strips nothing is the last one that matters, so
as many rounds as there are states leave exactly the states from which a cycle is reached. -/
def stripAll : Nat → List Neighbours → List Neighbours
  | 0, graph => graph
  | fuel + 1, graph => stripAll fuel (stripLeaves graph)

namespace Automaton

variable (a b : Automaton)

/-- Is no word accepted? -/
def isEmpty : Bool :=
  a.minimize.accepting.isEmpty

/-- Is every word that `b` accepts accepted by `a`? -/
def contains : Bool :=
  (b.difference a).isEmpty

/-- Do `a` and `b` accept the same words? -/
def isEquivalentTo : Bool :=
  a.contains b && b.contains a

/-- Each state with its targets. -/
def neighbours : List Neighbours :=
  a.states.map fun s => (s, (a.successors s).map (·.2))

/-- Is there a cycle through useful states? -/
def isCyclic : Bool :=
  let graph := a.removeUseless.neighbours
  !(stripAll graph.length graph).isEmpty

/-- Are there no words, finitely many or infinitely many? -/
def languageSize : LanguageSize :=
  let minimal := a.minimize
  if minimal.accepting.isEmpty then .empty
  else if minimal.isCyclic then .infinite
  else .finite

end Automaton

end RegularSets
