import RegularSets.Automaton.Edit
import RegularSets.Naming

/-!
# Completing an automaton

Missing transitions are sent to a sink: a state that does not accept and never leaves itself.
`completeOver` adds the transitions on the symbols of an alphabet, and `sinkState` finds a name for
the sink that no other kind of state has.
-/

namespace RegularSets

/-- Add a single target on every symbol of an alphabet that has none. -/
def Row.fill (alphabet : List Char) (sink : State) (row : Row) : Row :=
  alphabet.foldl (fun row c => row.insertIfNew c [sink]) row

namespace Automaton

variable (a : Automaton)

/-- Send every missing transition on a symbol of `alphabet` to `sink`, which is added if need be. -/
def completeOver (alphabet : List Char) (sink : State) : Automaton :=
  let b := a.addState sink
  { b with rows := b.rows.map fun _ row => Row.fill alphabet sink row }

/-- Make the transitions total over the automaton's own alphabet. -/
def complete : Automaton :=
  a.completeOver a.alphabet sinkName

/-- Does the state reject, and do all its transitions lead back to it? -/
def isSink (s : State) : Bool :=
  !a.isAccepting s && (a.successors s).all fun (_, t) => t = s

/-- A name for a sink of this automaton: free, or the name of a sink. -/
def sinkState : State :=
  freshName (fun s => a.hasState s && !a.isSink s) alternateMark a.numStates sinkName

end Automaton

end RegularSets
