import RegularSets.Automaton.Change
import RegularSets.Proofs.Automaton.Complete
import RegularSets.Proofs.Automaton.Rename

/-!
# Histories of changes keep automata well-formed

Whatever its arguments, a change of a well-formed automaton gives a well-formed one; so does a history
of changes (`wellFormed_changeAll`).
-/

namespace RegularSets.Automaton

variable {a : Automaton}

/-! ## Reading -/

/-- Reading moves the current state, which stays a state. -/
theorem wellFormed_read (h : a.WellFormed) (c : Char) : (a.read c).WellFormed := by
  refine { h with current_mem := fun {t} ht => ?_ }
  obtain ⟨s, -, ht⟩ := Option.bind_eq_some_iff.mp ht
  exact h.mem_of_target (List.mem_of_mem_head? ht)

theorem wellFormed_readWord (h : a.WellFormed) (word : List Char) : (a.readWord word).WellFormed := by
  induction word generalizing a with
  | nil => exact h
  | cons c word ih => exact ih (wellFormed_read h c)

theorem wellFormed_reset (h : a.WellFormed) : a.reset.WellFormed :=
  { h with current_mem := h.initial_mem }

/-! ## Any change -/

theorem wellFormed_change (h : a.WellFormed) (change : Change) : (a.change change).WellFormed := by
  cases change with
  | addState s => exact wellFormed_addState h
  | addStates states => exact wellFormed_addStates h states
  | removeState s => exact wellFormed_removeState h
  | replaceState old new => exact wellFormed_replaceState h
  | accept s => exact wellFormed_accept h
  | setInitial s => exact wellFormed_setInitial h
  | addTransition s c t => exact wellFormed_addTransition h
  | removeDead => exact wellFormed_removeDead h
  | removeInaccessible => exact wellFormed_removeInaccessible h
  | removeUseless => exact wellFormed_removeUseless h
  | rename scheme => exact wellFormed_rename h
  | complete => exact wellFormed_completeOver h
  | read c => exact wellFormed_read h c
  | readWord word => exact wellFormed_readWord h word
  | reset => exact wellFormed_reset h

theorem wellFormed_changeAll (h : a.WellFormed) (changes : List Change) :
    (a.changeAll changes).WellFormed := by
  induction changes generalizing a with
  | nil => exact h
  | cons change changes ih => exact ih (wellFormed_change h change)

end RegularSets.Automaton
