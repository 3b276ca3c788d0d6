import RegularSets.Automaton.Builder
import RegularSets.Automaton.Complete
import RegularSets.Automaton.Determinize

/-!
# Complement and products

Boolean operations need complete deterministic automata. `completed` makes one over a given alphabet,
with a sink that takes every missing transition. The complement exchanges accepting and other states;
the product of two automata runs them side by side on pairs of states, and what a pair accepts is a
Boolean function of what its two states accept.
-/

namespace RegularSets.Automaton

/-- A complete deterministic automaton and the place of its sink. -/
structure Completed where
  automaton : Automaton
  sink : Nat
  deriving DecidableEq

/-- A deterministic automaton itself, any other one determinized. -/
def deterministic (a : Automaton) : Automaton :=
  if a.isDeterministic then a else a.determinize

/-- A deterministic automaton for the same words that is complete over an alphabet. -/
def completed (a : Automaton) (alphabet : List Char) : Completed :=
  let d := a.deterministic
  let sink := d.sinkState
  let c := d.completeOver alphabet sink
  { automaton := c, sink := (c.states.idxOf? sink).getD 0 }

/-- An automaton for the words over the same alphabet that are not accepted. -/
def complement (a : Automaton) : Automaton :=
  let c := (a.completed a.alphabet).automaton
  { c with accepting := c.rejecting }

/-- For each state, the places of its first targets on the symbols of an alphabet; `fallback` stands
in for a missing target. -/
def targetPlaces (a : Automaton) (alphabet : List Char) (fallback : Nat) : List (List Nat) :=
  a.states.map fun s => alphabet.map fun c =>
    ((a.targets s c).head?.bind a.placeOf?).getD fallback

namespace Completed

/-- The place of the initial state, or of the sink if there is no initial state. -/
def start (d : Completed) : Nat :=
  (d.automaton.initial.bind fun s => d.automaton.states.idxOf? s).getD d.sink

/-- All pairs of places, by the first one. -/
def pairs (l r : Completed) : List (Nat × Nat) :=
  (List.range l.automaton.numStates).flatMap fun i =>
    (List.range r.automaton.numStates).map fun j => (i, j)

/-- A builder that knows the pair of the starts and then all pairs. -/
def pairBuilder (l r : Completed) : Builder (Nat × Nat) :=
  (pairs l r).foldl Builder.mention (Builder.start (l.start, r.start))

/-- The pairs of places with the transitions that two complete automata make side by side. -/
def productBuilder (accept : Bool → Bool → Bool) (alphabet : List Char) (l r : Completed) :
    Builder (Nat × Nat) :=
  let left := l.automaton.targetPlaces alphabet l.sink
  let right := r.automaton.targetPlaces alphabet r.sink
  (pairs l r).foldl (fun b (i, j) =>
    let accepts := accept (l.automaton.isAccepting (l.automaton.stateAt i))
      (r.automaton.isAccepting (r.automaton.stateAt j))
    let b := if accepts then b.markFinal (i, j) else b
    (alphabet.zip ((left.getD i []).zip (right.getD j []))).foldl
      (fun b (c, next) => b.addTransition (i, j) c next) b) (pairBuilder l r)

end Completed

/-- The symbols of either automaton. -/
def jointAlphabet (a b : Automaton) : List Char :=
  ascending (a.alphabet ++ b.alphabet)

/-- The words for which `accept` holds of what the two automata say. -/
def product (accept : Bool → Bool → Bool) (a b : Automaton) : Automaton :=
  let alphabet := a.jointAlphabet b
  let builder := Completed.productBuilder accept alphabet (a.completed alphabet)
    (b.completed alphabet)
  builder.build .canonical

def union (a b : Automaton) : Automaton :=
  a.product (fun x y => x || y) b

def intersection (a b : Automaton) : Automaton :=
  a.product (fun x y => x && y) b

def difference (a b : Automaton) : Automaton :=
  a.product (fun x y => x && !y) b

end RegularSets.Automaton
