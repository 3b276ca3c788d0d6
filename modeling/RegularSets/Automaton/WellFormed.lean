import RegularSets.Automaton.Run

/-!
# Well-formed automata

What it means that the parts of an automaton fit together, and the standard properties of states and
automata: reachable, live, useful, deterministic, complete. None of these is computed; the functions
that decide them or bring them about are elsewhere.
-/

namespace RegularSets.Automaton

/-- The parts of an automaton fit together: states are distinct and are exactly the sources of the
rows, targets are distinct states and no stored list of targets is empty, and only states have roles.

That no accepting state is listed twice (`nodup_accepting`) is asked for besides these, since every
operation keeps it. -/
structure WellFormed (a : Automaton) : Prop where
  nodup_states : a.states.Nodup
  mem_rows_iff : ∀ s, s ∈ a.rows ↔ s ∈ a.states
  targets_ne_nil : ∀ {s : State} {row : Row} {c : Char} {ts : List State},
    a.rows[s]? = some row → row[c]? = some ts → ts ≠ []
  nodup_targets : ∀ {s : State} {row : Row} {c : Char} {ts : List State},
    a.rows[s]? = some row → row[c]? = some ts → ts.Nodup
  target_mem : ∀ {s : State} {row : Row} {c : Char} {ts : List State} {t : State},
    a.rows[s]? = some row → row[c]? = some ts → t ∈ ts → t ∈ a.states
  nodup_accepting : a.accepting.Nodup
  accepting_mem : ∀ {s : State}, s ∈ a.accepting → s ∈ a.states
  initial_mem : ∀ {s : State}, a.initial = some s → s ∈ a.states
  current_mem : ∀ {s : State}, a.current = some s → s ∈ a.states

/-- Some word leads from the initial state to `s`. -/
def Reachable (a : Automaton) (s : State) : Prop :=
  ∃ i word, a.initial = some i ∧ a.Path i word s

/-- Some word leads from `s` to an accepting state. -/
def Live (a : Automaton) (s : State) : Prop :=
  ∃ word, a.AcceptsFrom s word

/-- Every symbol has one target at most. -/
def Deterministic (a : Automaton) : Prop :=
  ∀ s c, (a.targets s c).length ≤ 1

/-- Every state has exactly one target on every symbol of `alphabet`. -/
def CompleteOver (a : Automaton) (alphabet : List Char) : Prop :=
  ∀ s ∈ a.states, ∀ c ∈ alphabet, (a.targets s c).length = 1

/-- The states of `a` correspond one to one to those of `b`, with the same roles and transitions. -/
structure Isomorphism (a b : Automaton) where
  map : State → State
  injective : ∀ {s t}, s ∈ a.states → t ∈ a.states → map s = map t → s = t
  surjective : ∀ {t}, t ∈ b.states → ∃ s ∈ a.states, map s = t
  map_mem : ∀ {s}, s ∈ a.states → map s ∈ b.states
  map_initial : b.initial = a.initial.map map
  accepting_iff : ∀ {s}, s ∈ a.states → (map s ∈ b.accepting ↔ s ∈ a.accepting)
  map_targets : ∀ {s c}, s ∈ a.states → b.targets (map s) c = (a.targets s c).map map

theorem wellFormed_empty : WellFormed empty := by
  constructor <;> simp [empty]

end RegularSets.Automaton
