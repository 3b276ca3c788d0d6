import RegularSets.Automaton.Edit

/-!
# Building an automaton from values

A builder collects what is said about an automaton whose states are values of any type: which values
there are, which are final, and which transitions lead from one to another. A value gets a number when
it is first mentioned, the initial one number 0. Until the automaton is built a state is known by its
number only, and so are the targets of its transitions; then the numbers become names.
-/

namespace RegularSets

/-- A state that has no name yet. -/
structure Unnamed where
  isFinal : Bool := false
  row : Row Nat := ∅

structure Builder (α : Type) where
  /-- The numbers of the values, the last one first. They are only looked up. -/
  ids : List (α × Nat) := []
  /-- The states by number. -/
  states : Array Unnamed := #[]

namespace Builder

variable {α : Type}

def numStates (b : Builder α) : Nat :=
  b.states.size

section Say

variable [DecidableEq α] (b : Builder α)

/-- The number of a value, a new one if the value was never mentioned. -/
def addState (x : α) : Nat × Builder α :=
  match b.ids.lookup x with
  | some i => (i, b)
  | none => (b.numStates, { ids := (x, b.numStates) :: b.ids, states := b.states.push {} })

/-- A builder that knows the initial value alone. -/
def start (initial : α) : Builder α :=
  (addState {} initial).2

/-- Mention a value. -/
def mention (x : α) : Builder α :=
  (b.addState x).2

/-- Make a value final. -/
def markFinal (x : α) : Builder α :=
  let (i, b) := b.addState x
  { b with states := b.states.modify i fun s => { s with isFinal := true } }

/-- Add a transition. -/
def addTransition (x : α) (c : Char) (y : α) : Builder α :=
  let (i, b) := b.addState x
  let (j, b) := b.addState y
  { b with states := b.states.modify i fun s => { s with row := Row.add s.row c j } }

/-- One thing that is said to a builder. -/
inductive Fact (α : Type)
  | state (x : α)
  | final (x : α)
  | transition (x : α) (c : Char) (y : α)
  deriving Repr, DecidableEq

/-- The builder after it is told one thing. -/
def tell (b : Builder α) : Fact α → Builder α
  | .state x => b.mention x
  | .final x => b.markFinal x
  | .transition x c y => b.addTransition x c y

/-- The builder after it is told one thing after the other. -/
def tellAll (b : Builder α) (facts : List (Fact α)) : Builder α :=
  facts.foldl tell b

end Say

/-- The automaton of all that was said. The state with number `i` gets the `i`-th name of a scheme. -/
def build (b : Builder α) (scheme : Naming) : Automaton :=
  let names := scheme.names b.numStates
  let states := b.states.toList
  { states := names
    rows := Std.ExtTreeMap.ofList
      (names.zip (states.map fun s => Row.rename (fun j => names.getD j "") s.row))
    initial := names.head?
    accepting := ((states.zip names).filter fun e => e.1.isFinal).map (·.2)
    current := names.head? }

end Builder

end RegularSets
