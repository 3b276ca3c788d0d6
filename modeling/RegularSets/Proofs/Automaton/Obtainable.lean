import RegularSets.Automaton.Change
import RegularSets.Grammar.Automaton
import RegularSets.Proofs.Automaton.Complement
import RegularSets.Proofs.Automaton.Minimize
import RegularSets.Proofs.Automaton.Product
import RegularSets.Proofs.Expression.Automaton

/-!
# Obtainable automata are well-formed

Where automata come from, apart from stored documents: the empty one, a builder, an expression, a grammar,
and from there on any changes in place and any operations, in any order (`Obtainable`). The other operand
of a product may be any value at all, even one that no one could obtain.

Every constructor makes a well-formed automaton, and changes and operations keep it well-formed, so by
induction over its history every automaton is (`wellFormed_of_obtainable`). Products ask nothing of
their operands: they are built from values, and what a builder makes is well-formed whatever it was
told.
-/

namespace RegularSets.Automaton

/-- The automaton is the result of some constructor followed by changes and operations. -/
inductive Obtainable : Automaton → Prop
  | empty : Obtainable empty
  | build {α : Type} [DecidableEq α] (initial : α) (facts : List (Builder.Fact α))
      (scheme : Naming) : Obtainable (((Builder.start initial).tellAll facts).build scheme)
  | ofRegex {r : Regex} {a : Automaton} (made : r.toAutomaton = .ok a) : Obtainable a
  | ofGrammar (g : Grammar) : Obtainable g.toAutomaton
  | change {a : Automaton} (before : Obtainable a) (c : Change) : Obtainable (a.change c)
  | determinize {a : Automaton} (before : Obtainable a) : Obtainable a.determinize
  | minimize {a : Automaton} (before : Obtainable a) : Obtainable a.minimize
  | complement {a : Automaton} (before : Obtainable a) : Obtainable a.complement
  | union {a : Automaton} (before : Obtainable a) (b : Automaton) : Obtainable (a.union b)
  | intersection {a : Automaton} (before : Obtainable a) (b : Automaton) :
      Obtainable (a.intersection b)
  | difference {a : Automaton} (before : Obtainable a) (b : Automaton) :
      Obtainable (a.difference b)

variable {a : Automaton}

theorem Obtainable.changeAll (h : Obtainable a) (changes : List Change) :
    Obtainable (a.changeAll changes) := by
  induction changes generalizing a with
  | nil => exact h
  | cons c changes ih => exact ih (h.change c)

/-- **Invariants.** Whatever constructor an automaton comes from, and whatever changes and operations
it went through with whatever arguments, its parts fit together. -/
theorem wellFormed_of_obtainable (h : Obtainable a) : a.WellFormed := by
  induction h with
  | empty => exact wellFormed_empty
  | build initial facts scheme =>
    exact (Builder.records_ofFacts initial facts).wellFormed_build
  | ofRegex made => exact Regex.wellFormed_of_toAutomaton made
  | ofGrammar g => exact wellFormed_changeAll wellFormed_empty g.changes
  | change _ c ih => exact wellFormed_change ih c
  | determinize _ ih => exact wellFormed_determinize ih
  | minimize _ ih => exact (reduced_minimize ih).wellFormed
  | complement _ ih => exact wellFormed_complement ih
  | union _ b _ => exact wellFormed_product
  | intersection _ b _ => exact wellFormed_product
  | difference _ b _ => exact wellFormed_product

/-- A value that repeats a state, has no rows, and accepts at a state that is missing. -/
def broken : Automaton :=
  { states := ["A", "A"], accepting := ["Z"] }

/-- A built automaton that is edited until the sink is its initial state, then complemented and
combined with a value that is not well-formed. -/
def muchChanged : Automaton :=
  ((((Builder.start 0).tellAll [.transition 0 'a' 1, .transition 0 'a' 2, .transition 2 'b' 2,
    .final 2]).build .canonical).changeAll [.replaceState "B" "C", .addTransition "C" 'b' "A",
      .removeState "A", .complete, .readWord ['b'], .rename .alternate]).complement.difference broken

theorem obtainable_muchChanged : Obtainable muchChanged :=
  ((Obtainable.build 0 _ _).changeAll _).complement.difference _

theorem wellFormed_of_obtainable_muchChanged : Obtainable muchChanged ∧ muchChanged.WellFormed :=
  ⟨obtainable_muchChanged, wellFormed_of_obtainable obtainable_muchChanged⟩

end RegularSets.Automaton
