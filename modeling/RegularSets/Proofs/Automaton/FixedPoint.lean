import RegularSets.Proofs.Automaton.Determinize
import RegularSets.Proofs.Automaton.Useless

/-!
# What determinization leaves alone

Determinization merges targets, drops useless states and renames the rest. An automaton that passes
through all three stages unchanged is deterministic, has useful states only, and calls them by the
canonical names in order; conversely these conditions leave nothing to do: a visit finds no symbol with
several targets (`Merging.visit_eq_self`), so no state is added, and the later stages keep states,
targets and roles as they are (`determinize_eq_self_iff`). Well-formedness is needed for the stages after
merging only.

What determinization makes is of this kind, so that a second one gives the very same automaton, with the
order of its states and its current state (`determinize_determinize`).
-/

namespace RegularSets

namespace Merging

variable {base : Automaton} {m : Merging} {s : State}

theorem visit_eq_self (hone : ∀ c, (m.result.targets s c).length ≤ 1) : m.visit base s = m := by
  obtain ⟨entries, hvisit, -, hmem⟩ := exists_entries base m s
  have hnil : entries = [] := by
    refine List.eq_nil_iff_forall_not_mem.mpr fun ⟨c, ts⟩ hentry => ?_
    obtain ⟨hts, hlen⟩ := (hmem c ts).mp hentry
    have htargets : m.result.targets s c = ts := Row.targets_of_getElem? hts
    exact absurd (htargets ▸ hone c) (Nat.not_le_of_lt hlen)
  rw [hvisit, hnil]
  rfl

theorem visitFrom_eq_self (hdet : m.result.Deterministic) (fuel i : Nat) :
    visitFrom base fuel i m = m := by
  induction fuel generalizing i with
  | zero => rfl
  | succ fuel ih =>
    rw [visitFrom]
    split
    · rfl
    · rw [visit_eq_self (hdet _), ih]

end Merging

namespace Automaton

variable {a : Automaton}

/-- Without a symbol that has several targets there is nothing to merge. -/
theorem merging_eq_self (hdet : a.Deterministic) : a.merging = { result := a, merges := [] } :=
  Merging.visitFrom_eq_self hdet _ 0

theorem states_determinize (h : a.WellFormed) :
    a.determinize.states = Naming.canonical.names a.determinize.numStates := by
  have hstates := states_rename (wellFormed_useful_merging h) .canonical
  have hlength := congrArg List.length hstates
  rw [Naming.length_names] at hlength
  rw [numStates, determinize, hlength]
  exact hstates

theorem determinize_eq_self_iff (h : a.WellFormed) :
    a.determinize = a ↔ a.Deterministic ∧ (∀ s ∈ a.states, a.Reachable s ∧ a.Live s) ∧
      a.states = Naming.canonical.names a.numStates := by
  constructor
  · intro heq
    have hdet := deterministic_determinize h
    have huseful : ∀ s ∈ a.determinize.states, a.determinize.Reachable s ∧ a.determinize.Live s :=
      fun _ => useful_determinize h
    have hnames := states_determinize h
    rw [heq] at hdet huseful hnames
    exact ⟨hdet, huseful, hnames⟩
  · rintro ⟨hdet, huseful, hnames⟩
    rw [determinize, merging_eq_self hdet, removeUseless_eq_self h huseful, rename_eq_self h hnames]

/-- **Determinizing twice.** The second time nothing changes: neither the states and their order, nor the
transitions, nor the accepting states and their order, nor the initial and the current state. -/
theorem determinize_determinize (h : a.WellFormed) : a.determinize.determinize = a.determinize :=
  (determinize_eq_self_iff (wellFormed_determinize h)).mpr
    ⟨deterministic_determinize h, fun _ => useful_determinize h, states_determinize h⟩

/-- A merged state leads to states that are merged in their turn, and the first state is useless in the end.
The initial state is not the first one, and the reading has left it. -/
def midway : Automaton :=
  empty.changeAll [.addStates ["P", "Q", "PQ"], .setInitial "Q", .addTransition "Q" 'y' "PQ",
    .addTransition "PQ" 'x' "Q", .addTransition "PQ" 'x' "P", .addTransition "P" 'y' "Q",
    .accept "PQ", .accept "Q", .reset, .read 'y']

theorem wellFormed_midway : midway.WellFormed :=
  wellFormed_changeAll wellFormed_empty _

theorem determinize_determinize_midway :
    midway.WellFormed ∧ midway.isDeterministic = false ∧
      midway.merging.result.states = ["P", "Q", "PQ", "PQ_", "QPQ"] ∧
      midway.determinize.states = ["A", "B", "C", "D"] ∧
      midway.determinize.accepting = ["B", "A", "C", "D"] ∧
      midway.determinize.current = some "B" ∧
      midway.determinize.determinize = midway.determinize :=
  ⟨wellFormed_midway, by decide, by decide +kernel, by decide +kernel, by decide +kernel,
    by decide +kernel, determinize_determinize wellFormed_midway⟩

end Automaton

end RegularSets
