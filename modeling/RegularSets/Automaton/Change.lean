import RegularSets.Automaton.Complete
import RegularSets.Automaton.Edit
import RegularSets.Automaton.Reach
import RegularSets.Automaton.Run

/-!
# Changes

All ways of changing an automaton in place as one type, so that a history of changes is a list.
-/

namespace RegularSets

inductive Change
  | addState (s : State)
  | addStates (states : List State)
  | removeState (s : State)
  | replaceState (old new : State)
  | accept (s : State)
  | setInitial (s : State)
  | addTransition (s : State) (c : Char) (t : State)
  | removeDead
  | removeInaccessible
  | removeUseless
  | rename (scheme : Naming)
  | complete
  | read (c : Char)
  | readWord (word : List Char)
  | reset
  deriving Repr, DecidableEq

namespace Automaton

variable (a : Automaton)

/-- The automaton after a change. -/
def change : Change → Automaton
  | .addState s => a.addState s
  | .addStates states => a.addStates states
  | .removeState s => a.removeState s
  | .replaceState old new => a.replaceState old new
  | .accept s => a.accept s
  | .setInitial s => a.setInitial s
  | .addTransition s c t => a.addTransition s c t
  | .removeDead => a.removeDead
  | .removeInaccessible => a.removeInaccessible
  | .removeUseless => a.removeUseless
  | .rename scheme => a.rename scheme
  | .complete => a.complete
  | .read c => a.read c
  | .readWord word => a.readWord word
  | .reset => a.reset

/-- The automaton after a history of changes. -/
def changeAll (changes : List Change) : Automaton :=
  changes.foldl change a

/-- Why a change does nothing, for the changes that report it. -/
def refusal : Change → Option Refusal
  | .replaceState old new => a.replaceRefusal old new
  | .accept s => a.acceptRefusal s
  | .setInitial s => a.initialRefusal s
  | .addTransition s _ t => a.transitionRefusal s t
  | _ => none

/-- The refusals during a history of changes. -/
def refusals (a : Automaton) : List Change → List Refusal
  | [] => []
  | c :: rest => (a.refusal c).toList ++ refusals (a.change c) rest

end Automaton

end RegularSets
