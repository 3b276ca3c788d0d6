import RegularSets.Proofs.Automaton.Decide

/-!
# Complements

In a complete deterministic automaton every word over the alphabet leads to one state, so the words
accepted with accepting and other states exchanged are those that were rejected
(`acceptsFrom_exchanged`). The complement of an automaton is its completed copy exchanged; it accepts
what the automaton rejects, among the words over its alphabet, provided that the copy has an initial
state. The one case in which it has none is `Stuck`, and there the complement accepts nothing
(`acceptsWord_complement_iff`, `not_acceptsWord_complement_sinkAlone`).

The complement keeps the alphabet (`alphabet_complement`), since every symbol leads somewhere from the
sink, whatever was lost when the automaton was determinized. So complementing twice gives the words back,
as long as the automaton is not stuck. Stuck or not, the complement is complete and deterministic over
that alphabet (`isDeterministic_alphabet_completeOver_complement`): exchanging the accepting states moves
no transition.
-/

namespace RegularSets.Automaton

variable {a : Automaton} {alphabet : List Char} {s t : State} {c : Char} {word : List Char}

/-- Accepting and other states exchanged. -/
def exchanged (a : Automaton) : Automaton :=
  { a with accepting := a.rejecting }

theorem complement_eq : a.complement = (a.completed a.alphabet).automaton.exchanged :=
  rfl

theorem mem_accepting_exchanged (hs : s ∈ a.states) : s ∈ a.exchanged.accepting ↔ s ∉ a.accepting := by
  simp [exchanged, rejecting, isAccepting, hs]

theorem wellFormed_exchanged (h : a.WellFormed) : a.exchanged.WellFormed :=
  { h with
    nodup_accepting := h.nodup_states.filter _
    accepting_mem := fun hs => (List.mem_filter.mp hs).1 }

/-- From a state of a complete deterministic automaton that knows no other symbols, exactly the words
over the alphabet that were rejected are accepted after the exchange. -/
theorem acceptsFrom_exchanged (h : a.WellFormed) (hcomplete : a.CompleteOver alphabet)
    (hover : ∀ {s c t}, t ∈ a.targets s c → c ∈ alphabet) (hs : s ∈ a.states) :
    a.exchanged.AcceptsFrom s word ↔ (∀ c ∈ word, c ∈ alphabet) ∧ ¬ a.AcceptsFrom s word := by
  induction word generalizing s with
  | nil => simp [acceptsFrom_nil, mem_accepting_exchanged hs]
  | cons c word ih =>
    have htargets : a.exchanged.targets s c = a.targets s c := rfl
    rw [acceptsFrom_cons, acceptsFrom_cons, htargets, List.forall_mem_cons]
    by_cases hc : c ∈ alphabet
    · obtain ⟨t, ht⟩ := List.length_eq_one_iff.mp (hcomplete s hs c hc)
      have hmem : t ∈ a.states := h.mem_of_target (ht ▸ List.mem_singleton_self t)
      simpa [ht, hc] using ih hmem
    · refine iff_of_false ?_ fun hword => hc hword.1.1
      rintro ⟨t, ht, -⟩
      exact hc (hover ht)

section Complement

variable (h : a.WellFormed)

include h

theorem wellFormed_complement : a.complement.WellFormed := by
  have htotal : (a.completed a.alphabet).Total a.alphabet := total_completed h
  rw [complement_eq]
  exact wellFormed_exchanged htotal.wellFormed

theorem mem_alphabet_of_completed (ht : t ∈ (a.completed a.alphabet).automaton.targets s c) :
    c ∈ a.alphabet :=
  alphabet_completed h ▸ mem_alphabet ht

theorem accepts_complement : a.complement.Accepts word ↔
    ¬ a.Stuck ∧ (∀ c ∈ word, c ∈ a.alphabet) ∧ ¬ a.Accepts word := by
  have htotal : (a.completed a.alphabet).Total a.alphabet := total_completed h
  have hinitial : (a.completed a.alphabet).automaton.initial = none ↔ a.Stuck :=
    initial_completed_eq_none_iff h
  have hwords : (a.completed a.alphabet).automaton.Accepts word ↔ a.Accepts word :=
    accepts_completed h
  have hsame : a.complement.initial = (a.completed a.alphabet).automaton.initial := rfl
  rw [← hinitial, ← hwords, accepts_iff, accepts_iff, hsame]
  cases hi : (a.completed a.alphabet).automaton.initial with
  | none => simp
  | some i =>
    simp only [Option.some.injEq, exists_eq_left', reduceCtorEq, not_false_eq_true, true_and]
    rw [complement_eq]
    exact acceptsFrom_exchanged htotal.wellFormed htotal.complete
      (mem_alphabet_of_completed h) (htotal.wellFormed.initial_mem hi)

theorem initial_complement_eq_none_iff : a.complement.initial = none ↔ a.Stuck := by
  show (a.completed a.alphabet).automaton.initial = none ↔ a.Stuck
  exact initial_completed_eq_none_iff h

theorem alphabet_complement : a.complement.alphabet = a.alphabet := by
  show (a.completed a.alphabet).automaton.alphabet = a.alphabet
  exact alphabet_completed h

/-- Complementing twice gives back the accepted words. -/
theorem accepts_complement_complement (hstuck : ¬ a.Stuck) :
    a.complement.complement.Accepts word ↔ a.Accepts word := by
  rw [accepts_complement (wellFormed_complement h), alphabet_complement h, accepts_complement h]
  constructor
  · rintro ⟨-, hword, hnot⟩
    exact Classical.byContradiction fun hacc => hnot ⟨hstuck, hword, hacc⟩
  · intro hacc
    obtain ⟨i, -, hi⟩ := accepts_iff.mp hacc
    have hinitial : ¬ a.complement.Stuck := fun hc =>
      hstuck ((initial_complement_eq_none_iff h).mp hc.2.1)
    exact ⟨hinitial, hi.mem_alphabet, fun hc => hc.2.2 hacc⟩

/-- No word is accepted by an automaton and by its complement. -/
theorem not_accepts_intersection_complement : ¬ (a.intersection a.complement).Accepts word := by
  rw [← acceptsWord_iff, intersection, acceptsWord_product h (wellFormed_complement h) rfl,
    Bool.and_eq_true, acceptsWord_iff, acceptsWord_iff, accepts_complement h]
  exact fun hacc => hacc.2.2.2 hacc.1

end Complement

/-- **Complement.** It accepts the words over the alphabet of the automaton that the automaton rejects,
unless the automaton is stuck, when it accepts no word. -/
theorem acceptsWord_complement_iff (h : a.WellFormed) (word : List Char) :
    a.complement.acceptsWord word = true ↔
      ¬ a.Stuck ∧ (∀ c ∈ word, c ∈ a.alphabet) ∧ a.acceptsWord word = false := by
  rw [acceptsWord_iff, accepts_complement h, ← acceptsWord_iff, Bool.not_eq_true]

/-- A lone sink without the initial role rejects all words, but its complement does not accept those
over its alphabet, not even the empty word. -/
theorem not_acceptsWord_complement_sinkAlone :
    ¬ ∀ word, sinkAlone.complement.acceptsWord word = true ↔
      (∀ c ∈ word, c ∈ sinkAlone.alphabet) ∧ sinkAlone.acceptsWord word = false := by
  intro h
  have hreject : sinkAlone.acceptsWord [] = false := by decide
  have hcomplement : sinkAlone.complement.acceptsWord [] = false := by decide +kernel
  have haccept := (h []).mpr ⟨nofun, hreject⟩
  rw [hcomplement] at haccept
  cases haccept

/-- A symbol that leads to a dead state only, and an accepting state named like the sink. -/
def deadSymbol : Automaton :=
  empty.changeAll [.addStates ["A", sinkName, "C"], .addTransition "A" 'a' "A",
    .addTransition "A" 'a' sinkName, .addTransition "A" 'b' "C", .accept sinkName]

theorem wellFormed_deadSymbol : deadSymbol.WellFormed :=
  wellFormed_changeAll wellFormed_empty _

theorem acceptsWord_complement_iff_deadSymbol :
    deadSymbol.WellFormed ∧ deadSymbol.isDeterministic = false ∧ deadSymbol.alphabet = ['a', 'b'] ∧
      ∀ word, deadSymbol.complement.acceptsWord word = true ↔
        ¬ deadSymbol.Stuck ∧ (∀ c ∈ word, c ∈ deadSymbol.alphabet) ∧
          deadSymbol.acceptsWord word = false :=
  ⟨wellFormed_deadSymbol, by decide, by decide, acceptsWord_complement_iff wellFormed_deadSymbol⟩

/-- **Shape of the complement.** It is deterministic, it has the alphabet of the automaton, and each of its
states has exactly one target on every symbol of that alphabet. -/
theorem isDeterministic_alphabet_completeOver_complement (h : a.WellFormed) :
    a.complement.isDeterministic = true ∧ a.complement.alphabet = a.alphabet ∧
      a.complement.CompleteOver a.alphabet := by
  have htotal : (a.completed a.alphabet).Total a.alphabet := total_completed h
  have hdet : a.complement.Deterministic := htotal.deterministic
  have hcomplete : a.complement.CompleteOver a.alphabet := htotal.complete
  exact ⟨isDeterministic_iff.mpr hdet, alphabet_complement h, hcomplete⟩

theorem isDeterministic_alphabet_completeOver_complement_deadSymbol :
    deadSymbol.WellFormed ∧ deadSymbol.alphabet = ['a', 'b'] ∧
      deadSymbol.determinize.alphabet = ['a'] ∧
      deadSymbol.complement.isDeterministic = true ∧
      deadSymbol.complement.alphabet = deadSymbol.alphabet ∧
      deadSymbol.complement.CompleteOver deadSymbol.alphabet :=
  ⟨wellFormed_deadSymbol, by decide, by decide +kernel,
    isDeterministic_alphabet_completeOver_complement wellFormed_deadSymbol⟩

/-- **Laws of the complement.** For a well-formed automaton with an initial state the decisions find
that its double complement is equivalent to it, and that it has no word in common with its
complement. -/
theorem isEquivalentTo_complement_complement_isEmpty_intersection (h : a.WellFormed)
    (hinitial : a.initial.isSome = true) :
    a.complement.complement.isEquivalentTo a = true ∧
      (a.intersection a.complement).isEmpty = true := by
  have hstuck : ¬ a.Stuck := fun hc => by
    rw [hc.2.1] at hinitial
    cases hinitial
  have hcomplement := wellFormed_complement h
  constructor
  · rw [isEquivalentTo_iff (wellFormed_complement hcomplement) h]
    exact fun word => accepts_complement_complement h hstuck
  · exact (isEmpty_iff wellFormed_product).mpr fun word => not_accepts_intersection_complement h

/-- States named like the sink and like the sink that would be made in its stead, one accepting and one
with a transition to another state, and a symbol that leads to a dead state only. -/
def sinksTaken : Automaton :=
  empty.changeAll [.addStates ["A", sinkName, sinkName ++ "_", "D"], .addTransition "A" 'a' "A",
    .addTransition "A" 'a' sinkName, .addTransition sinkName 'b' (sinkName ++ "_"),
    .addTransition (sinkName ++ "_") 'a' "A", .addTransition "A" 'd' "D", .accept sinkName]

theorem wellFormed_sinksTaken : sinksTaken.WellFormed :=
  wellFormed_changeAll wellFormed_empty _

theorem isEquivalentTo_complement_complement_isEmpty_intersection_sinksTaken :
    sinksTaken.WellFormed ∧ sinksTaken.initial.isSome = true ∧ sinksTaken.isDeterministic = false ∧
      sinksTaken.isSink sinkName = false ∧ sinksTaken.isSink (sinkName ++ "_") = false ∧
      sinksTaken.complement.complement.isEquivalentTo sinksTaken = true ∧
      (sinksTaken.intersection sinksTaken.complement).isEmpty = true :=
  ⟨wellFormed_sinksTaken, by decide, by decide, by decide, by decide,
    isEquivalentTo_complement_complement_isEmpty_intersection wellFormed_sinksTaken (by decide)⟩

end RegularSets.Automaton
