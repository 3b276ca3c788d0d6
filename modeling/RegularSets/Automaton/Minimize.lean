import RegularSets.Automaton.Product
import RegularSets.Refinement

/-!
# Minimization

The smallest deterministic automaton for a language: determinize, complete with a sink, find the
classes of equivalent states, let the first state of each class take the place of the others, and
drop the sink again.
-/

namespace RegularSets.Automaton

theorem placeOf?_lt {a : Automaton} {s : State} {i : Nat} (h : a.placeOf? s = some i) :
    i < a.numStates :=
  lastPlace?_lt h

theorem targetPlaces_lt {a : Automaton} {alphabet : List Char} {fallback : Nat}
    (h : fallback < a.numStates) :
    ∀ row ∈ a.targetPlaces alphabet fallback, ∀ t ∈ row, t < a.numStates := by
  intro row hrow t ht
  obtain ⟨s, -, rfl⟩ := List.mem_map.mp hrow
  obtain ⟨c, -, rfl⟩ := List.mem_map.mp ht
  cases hp : (a.targets s c).head?.bind a.placeOf? with
  | none => exact h
  | some i =>
    obtain ⟨u, -, hu⟩ := Option.bind_eq_some_iff.mp hp
    exact placeOf?_lt hu

/-- The transition table of an automaton over an alphabet. Only the first targets count, and
`fallback` stands in for a missing one. -/
def table (a : Automaton) (alphabet : List Char) (fallback : Nat) (h : fallback < a.numStates) :
    Table :=
  let cells := ((a.targetPlaces alphabet fallback).map List.toArray).toArray
  let accepting := (a.states.map a.isAccepting).toArray
  { numStates := a.numStates
    numSymbols := alphabet.length
    next := fun s c => (cells.getD s #[]).getD c fallback
    final := fun s => accepting.getD s false
    next_lt := fun _ _ => cell_lt h (targetPlaces_lt h) }

/-- Each state that is not the first of its class, with the first one. -/
def equivalentStates (a : Automaton) (p : Partition) : List (State × State) :=
  (List.range a.numStates).filterMap fun s =>
    let first := p.representative (p.blockOf s)
    if first = s then none else some (a.stateAt s, a.stateAt first)

/-- The merges of equivalent states of a completed automaton. -/
def equivalences (a : Automaton) : List (State × State) :=
  let sink := (a.states.idxOf? sinkName).getD (a.numStates - 1)
  if h : sink < a.numStates then
    a.equivalentStates (a.table a.alphabet sink h).equivalence
  else []

/-- Let the first state of each class of equivalent states stand for all of them. -/
def mergeEquivalent (a : Automaton) : Automaton :=
  if a.states.isEmpty then a
  else
    let c := a.complete
    (c.equivalences.foldl (fun b (old, new) => b.replaceState old new) c).removeState sinkName

/-- The minimal deterministic automaton for the same words. It has no useless state and no sink. -/
def minimize (a : Automaton) : Automaton :=
  a.determinize.mergeEquivalent

end RegularSets.Automaton
