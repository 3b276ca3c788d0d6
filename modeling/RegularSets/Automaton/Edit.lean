import RegularSets.Automaton.Basic
import RegularSets.Naming

/-!
# Editing an automaton

The elementary changes of an automaton. An edit that names a missing state changes nothing;
`Refusal` says why, for those edits that report it.

A renaming gives all states new names at once: the `i`-th state is called by the `i`-th name of a scheme.
Old and new names may overlap, so rows, targets and roles are renamed together.
-/

namespace RegularSets

namespace Row

/-- The row without a target; symbols that have no target left are dropped. -/
def without (s : State) (row : Row) : Row :=
  mapTargets (List.filter (· ≠ s)) row

/-- The row with `new` in the place of `old`, once in every list that held either. -/
def redirect (old new : State) (row : Row) : Row :=
  row.map fun _ ts =>
    if old ∈ ts then (ts.map fun t => if t = old then new else t).eraseDups else ts

/-- The row with every target renamed. -/
def rename {τ : Type} (f : τ → State) (row : Row τ) : Row :=
  row.map fun _ ts => ts.map f

end Row

namespace Automaton

variable (a : Automaton)

/-- Add a state. The first one becomes the initial and the current state. -/
def addState (s : State) : Automaton :=
  if s ∈ a.states then a
  else
    let b := { a with states := a.states ++ [s], rows := a.rows.insert s ∅ }
    if a.initial.isNone then { b with initial := some s, current := some s } else b

def addStates (states : List State) : Automaton :=
  states.foldl addState a

/-- Remove a state with its roles and all transitions from it and to it. -/
def removeState (s : State) : Automaton :=
  if s ∈ a.states then
    { states := a.states.erase s
      rows := (a.rows.erase s).map fun _ row => Row.without s row
      initial := a.initial.filter (· ≠ s)
      accepting := a.accepting.filter (· ≠ s)
      current := a.current.filter (· ≠ s) }
  else a

/-- Can `old` be replaced by `new`? -/
def canReplace (old new : State) : Bool :=
  old ≠ new && a.hasState old && a.hasState new

/-- Let `new` take the place of `old` as a target, as the initial and as the current state, then
remove `old`. Its own transitions are lost. -/
def replaceState (old new : State) : Automaton :=
  if a.canReplace old new then
    let move := Option.map fun s => if s = old then new else s
    { a with
      rows := a.rows.map fun _ row => Row.redirect old new row
      initial := move a.initial
      current := move a.current }.removeState old
  else a

/-- Make a state accepting. -/
def accept (s : State) : Automaton :=
  if s ∈ a.states then { a with accepting := appendNew a.accepting s } else a

/-- Make a state initial. The current state stays. -/
def setInitial (s : State) : Automaton :=
  if s ∈ a.states then { a with initial := some s } else a

/-- Add a transition, unless it is there. -/
def addTransition (s : State) (c : Char) (t : State) : Automaton :=
  if t ∈ a.states then
    match a.rows[s]? with
    | none => a
    | some row => { a with rows := a.rows.insert s (Row.add row c t) }
  else a

/-- Rename every state, wherever it stands, by a function. -/
def mapStates (f : State → State) : Automaton where
  states := a.states.map f
  rows := Std.ExtTreeMap.ofList (a.rows.toList.map fun (s, row) => (f s, Row.rename f row))
  initial := a.initial.map f
  accepting := a.accepting.map f
  current := a.current.map f

/-- The new names of the states; a name that is no state has none. -/
def newNames (scheme : Naming) : Std.ExtTreeMap State State :=
  Std.ExtTreeMap.ofList (a.states.zip (scheme.names a.states.length))

/-- Call the `i`-th state by the `i`-th name of a scheme. -/
def rename (scheme : Naming) : Automaton :=
  let names := a.newNames scheme
  a.mapStates fun s => names[s]?.getD s

end Automaton

/-! ## Refusals -/

/-- Why an edit changed nothing. -/
inductive Refusal
  | cannotReplace (old new : State)
  | cannotAccept (s : State)
  | cannotStart (s : State)
  | cannotConnect (s : State)
  deriving Repr, DecidableEq

def Refusal.message : Refusal → String
  | cannotReplace old new => "replace_state: can't replace " ++ old ++ " by " ++ new
  | cannotAccept s => "accept_state: no state " ++ s
  | cannotStart s => "set_initial_state: no state " ++ s
  | cannotConnect s => "add_transition: no state " ++ s

namespace Automaton

variable (a : Automaton)

def replaceRefusal (old new : State) : Option Refusal :=
  if a.canReplace old new then none else some (.cannotReplace old new)

def acceptRefusal (s : State) : Option Refusal :=
  if s ∈ a.states then none else some (.cannotAccept s)

def initialRefusal (s : State) : Option Refusal :=
  if s ∈ a.states then none else some (.cannotStart s)

/-- A missing target is reported before a missing source. -/
def transitionRefusal (s t : State) : Option Refusal :=
  if t ∉ a.states then some (.cannotConnect t)
  else if s ∉ a.rows then some (.cannotConnect s)
  else none

end Automaton

end RegularSets
