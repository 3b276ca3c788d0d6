import RegularSets.Automaton.Basic

/-!
# Reading words

An automaton reads in two ways. Step by step, the current state moves along the first target of each
symbol and is lost for good where there is none (`read`, `readWord`, `reset`, `accepts`). All at once,
a word is accepted if following every target leads to an accepting state (`acceptsWord`), whatever
the current state is.

`Path` and `Accepts` say without computation what the second way finds.
-/

namespace RegularSets.Automaton

variable (a : Automaton)

/-! ## Step by step -/

/-- Move the current state along a symbol. -/
def read (c : Char) : Automaton :=
  { a with current := a.current.bind fun s => (a.targets s c).head? }

def readWord (word : List Char) : Automaton :=
  word.foldl read a

/-- Start reading again at the initial state. -/
def reset : Automaton :=
  { a with current := a.initial }

/-- Is the current state accepting? -/
def accepts : Bool :=
  a.current.any a.isAccepting

/-! ## All at once -/

/-- The states that a symbol leads to from a list of states. -/
def step (starts : List State) (c : Char) : List State :=
  (starts.flatMap fun s => a.targets s c).eraseDups

/-- The states that a word leads to from a list of states. Reading goes on when no state is left, which
changes nothing: a program may stop there. -/
def reach (starts : List State) (word : List Char) : List State :=
  word.foldl a.step starts

/-- Does the word lead from the initial state to an accepting one? -/
def acceptsWord (word : List Char) : Bool :=
  (a.reach a.initial.toList word).any a.isAccepting

/-! ## Paths -/

/-- There is a path of stored transitions from one state to another, labelled with the word. -/
inductive Path (a : Automaton) : State → List Char → State → Prop
  | nil (s : State) : Path a s [] s
  | cons {s t u : State} {c : Char} {word : List Char} (step : t ∈ a.targets s c)
      (rest : Path a t word u) : Path a s (c :: word) u

/-- The word labels a path from the initial state to an accepting one. -/
def Accepts (word : List Char) : Prop :=
  ∃ s t, a.initial = some s ∧ a.Path s word t ∧ t ∈ a.accepting

/-- The word labels a path from `s` to an accepting state. -/
def AcceptsFrom (s : State) (word : List Char) : Prop :=
  ∃ t, a.Path s word t ∧ t ∈ a.accepting

theorem mem_step {l : List State} {c : Char} {t : State} :
    t ∈ a.step l c ↔ ∃ s ∈ l, t ∈ a.targets s c := by
  simp [step, List.mem_eraseDups]

end RegularSets.Automaton
