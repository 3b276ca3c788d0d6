import Std.Data.ExtTreeMap
import RegularSets.Distinct

/-!
# Finite automata

An automaton has named states in a fixed order, a row of transitions for each state, an optional
initial state, a list of accepting states, and a current state for step-by-step reading. A row sends
a symbol to an ordered list of targets, so the automaton may be nondeterministic.

The type holds any such value, also one whose parts do not fit together; `Automaton.WellFormed` says
what fitting together means. The maps are kept in a canonical form, so two automata are equal as
soon as they have the same states, transitions and roles.
-/

namespace RegularSets

/-- States are known by their names. -/
abbrev State := String

/-- The transitions out of one state: an ordered list of targets for each symbol. While an automaton is
built, its states are numbers. -/
abbrev Row (τ : Type := State) := Std.ExtTreeMap Char (List τ)

structure Automaton where
  /-- The states in the order in which they came. -/
  states : List State := []
  rows : Std.ExtTreeMap State Row := ∅
  initial : Option State := none
  accepting : List State := []
  /-- The state reached by reading so far; none if some symbol could not be read. -/
  current : Option State := none
  deriving DecidableEq

namespace Row

variable {τ : Type}

/-- The targets on a symbol. -/
def targets (row : Row τ) (c : Char) : List τ :=
  row[c]?.getD []

/-- Add a target on a symbol, unless it is there. -/
def add [DecidableEq τ] (row : Row τ) (c : Char) (t : τ) : Row τ :=
  row.insert c (appendNew (targets row c) t)

/-- All symbols with their targets, in increasing order of symbols. -/
def pairs (row : Row τ) : List (Char × τ) :=
  row.toList.flatMap fun (c, ts) => ts.map fun t => (c, t)

/-- The targets on one symbol changed, or the symbol dropped if no target is left. -/
def mapTargets (f : List τ → List τ) (row : Row τ) : Row τ :=
  row.filterMap fun _ ts => if (f ts).isEmpty then none else some (f ts)

end Row

namespace Automaton

/-- The automaton without states. -/
def empty : Automaton := {}

instance : Inhabited Automaton := ⟨empty⟩

variable (a : Automaton)

def numStates : Nat :=
  a.states.length

def hasState (s : State) : Bool :=
  s ∈ a.states

def isAccepting (s : State) : Bool :=
  s ∈ a.accepting

/-- The state at a place of the list of states. -/
def stateAt (i : Nat) : State :=
  a.states.getD i ""

/-- The place of a state in the list of states; the last one, should it stand there twice. -/
def placeOf? (s : State) : Option Nat :=
  lastPlace? s a.states

/-- The row of a state; empty if there is none. -/
def row (s : State) : Row :=
  a.rows[s]?.getD ∅

/-- The targets of a state on a symbol. -/
def targets (s : State) (c : Char) : List State :=
  Row.targets (a.row s) c

/-- The transitions out of a state, in increasing order of symbols. -/
def successors (s : State) : List (Char × State) :=
  Row.pairs (a.row s)

/-- All transitions, by source in the order of the states. -/
def transitions : List (State × Char × State) :=
  a.states.flatMap fun s => (a.successors s).map fun (c, t) => (s, c, t)

/-- The symbols of all rows in increasing order. -/
def alphabet : List Char :=
  ascending (a.rows.toList.flatMap fun (_, row) => row.keys)

/-- The states that are not accepting. -/
def rejecting : List State :=
  a.states.filter fun s => !a.isAccepting s

/-- Does every symbol of every row have one target at most? -/
def isDeterministic : Bool :=
  a.rows.toList.all fun (_, row) => row.toList.all fun (_, ts) => ts.length ≤ 1

/-- The states with a transition on a symbol into a set of states. -/
def predecessors (c : Char) (set : List State) : List State :=
  a.states.filter fun s => (a.targets s c).any fun t => t ∈ set

end Automaton

end RegularSets
