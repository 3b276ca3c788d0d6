import RegularSets.Automaton.Decide
import RegularSets.Proofs.Automaton.Minimize
import RegularSets.Proofs.Automaton.Product

/-!
# Decisions about languages

All states of a minimal automaton are reachable, so an accepting one among them shows an accepted word
(`isEmpty_iff`). One language contains another exactly if their difference, the right way round, is
empty (`contains_iff`), and two languages are equal if they contain each other
(`isEquivalentTo_iff`).
-/

namespace RegularSets.Automaton

variable {a b : Automaton}

theorem isEmpty_iff (h : a.WellFormed) : a.isEmpty = true ↔ ∀ word, ¬ a.Accepts word := by
  rw [isEmpty, List.isEmpty_iff]
  constructor
  · intro hnil word hacc
    obtain ⟨s, t, -, -, ht⟩ := (accepts_minimize h).mpr hacc
    rw [hnil] at ht
    cases ht
  · intro hnone
    refine List.eq_nil_iff_forall_not_mem.mpr fun t ht => ?_
    have hstate := (reduced_minimize h).wellFormed.accepting_mem ht
    obtain ⟨⟨i, word, hi, hpath⟩, -⟩ := useful_minimize h hstate
    exact hnone word ((accepts_minimize h).mp ⟨i, t, hi, hpath, ht⟩)

section Contains

variable (ha : a.WellFormed) (hb : b.WellFormed)

include ha hb

theorem contains_iff : a.contains b = true ↔ ∀ word, b.Accepts word → a.Accepts word := by
  rw [contains, difference, isEmpty_iff wellFormed_product]
  refine forall_congr' fun word => ?_
  rw [← acceptsWord_iff, acceptsWord_product hb ha rfl, ← acceptsWord_iff, ← acceptsWord_iff]
  simp

theorem isEquivalentTo_iff :
    a.isEquivalentTo b = true ↔ ∀ word, a.Accepts word ↔ b.Accepts word := by
  rw [isEquivalentTo, Bool.and_eq_true, contains_iff ha hb, contains_iff hb ha]
  exact ⟨fun h word => ⟨h.2 word, h.1 word⟩,
    fun h => ⟨fun word => (h word).mpr, fun word => (h word).mp⟩⟩

end Contains

/-- **Decisions.** Emptiness, containment and equality of the languages of well-formed automata are
decided, whatever their alphabets are. -/
theorem isEmpty_contains_isEquivalentTo (ha : a.WellFormed) (hb : b.WellFormed) :
    (a.isEmpty = true ↔ ∀ word, a.acceptsWord word = false) ∧
      (a.contains b = true ↔ ∀ word, b.acceptsWord word = true → a.acceptsWord word = true) ∧
      (a.isEquivalentTo b = true ↔ ∀ word, a.acceptsWord word = b.acceptsWord word) := by
  refine ⟨(isEmpty_iff ha).trans (forall_congr' fun word => ?_), (contains_iff ha hb).trans ?_,
    (isEquivalentTo_iff ha hb).trans (forall_congr' fun word => ?_)⟩
  · rw [← acceptsWord_iff, Bool.not_eq_true]
  · simp only [acceptsWord_iff]
  · rw [Bool.eq_iff_iff, acceptsWord_iff, acceptsWord_iff]

theorem isEmpty_contains_isEquivalentTo_sinks :
    (sinkTargeted.WellFormed ∧ sinkAlone.WellFormed) ∧
      (sinkTargeted.isEmpty = true ↔ ∀ word, sinkTargeted.acceptsWord word = false) ∧
      (sinkTargeted.contains sinkAlone = true ↔
        ∀ word, sinkAlone.acceptsWord word = true → sinkTargeted.acceptsWord word = true) ∧
      (sinkTargeted.isEquivalentTo sinkAlone = true ↔
        ∀ word, sinkTargeted.acceptsWord word = sinkAlone.acceptsWord word) :=
  ⟨⟨wellFormed_sinkTargeted, wellFormed_sinkAlone⟩,
    isEmpty_contains_isEquivalentTo wellFormed_sinkTargeted wellFormed_sinkAlone⟩

end RegularSets.Automaton
