import RegularSets.Automaton.Edit
import RegularSets.Queue

/-!
# Accessible and live states

`accessibleFrom` lists the states that can be reached from a state, breadth first, and `live` those
from which an accepting state can be reached. The states that are not both are useless, and
`removeUseless` drops them.
-/

namespace RegularSets.Automaton

variable (a : Automaton)

/-- The number of stored targets of all rows. -/
def numTargets : Nat :=
  (a.rows.toList.flatMap fun (_, row) => Row.pairs row).length

/-- The states reachable from `s` in the order of a breadth-first search, `s` first; none if `s` is
not a state. Only `s` and stored targets can be found, which bounds the search. -/
def accessibleFrom (s : State) : List State :=
  if s ∈ a.states then
    Queue.explore (fun s => (a.successors s).map (·.2)) (a.numTargets + 1) (Queue.ofList [s])
  else []

/-- The states reachable from the initial state. -/
def accessible : List State :=
  match a.initial with
  | none => []
  | some s => a.accessibleFrom s

/-- The sources of the transitions into `s`. -/
def sourcesOf (s : State) : List State :=
  (a.transitions.filter fun (_, _, t) => t = s).map (·.1)

/-- The states from which an accepting state can be reached, found backwards from these. -/
def live : List State :=
  Queue.explore a.sourcesOf (a.accepting.length + a.transitions.length) (Queue.ofList a.accepting)

/-- Remove several states at once, with their roles and all transitions from them and to them. -/
def removeAll (gone : List State) : Automaton :=
  let stays := fun s => !(gone.contains s)
  { states := a.states.filter stays
    rows := a.rows.filterMap fun s row =>
      if stays s then some (Row.mapTargets (List.filter stays) row) else none
    initial := a.initial.filter stays
    accepting := a.accepting.filter stays
    current := a.current.filter stays }

/-- Remove all states but those in `keep`. -/
def retain (keep : List State) : Automaton :=
  let gone := a.states.filter fun s => !(keep.contains s)
  if gone.isEmpty then a else a.removeAll gone

def removeDead : Automaton :=
  a.retain a.live

def removeInaccessible : Automaton :=
  a.retain a.accessible

/-- Remove the dead states, then the inaccessible ones. -/
def removeUseless : Automaton :=
  a.removeDead.removeInaccessible

end RegularSets.Automaton
