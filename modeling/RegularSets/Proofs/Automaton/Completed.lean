import RegularSets.Automaton.Product
import RegularSets.Proofs.Automaton.Change
import RegularSets.Proofs.Automaton.Determinize

/-!
# Complete deterministic copies

What `Automaton.completed` makes is a deterministic automaton for the same words in which every state
has one target on each symbol of the alphabet, with a sink at the place that comes along
(`Completed.Total`). It has an initial state but in one case, `Stuck`
(`initial_completed_eq_none_iff`).

Such an automaton runs by places: a symbol leads from each place to exactly one other, and a word is
accepted if it leads from the start to the place of an accepting state (`Completed.Total.accepts_iff`).
An automaton without an initial state starts at the sink.
-/

namespace RegularSets.Automaton

variable {a : Automaton} {alphabet : List Char} {s t : State} {c : Char} {word : List Char}

/-! ## Making an automaton deterministic -/

section Deterministic

variable (h : a.WellFormed)

include h

theorem wellFormed_deterministic : a.deterministic.WellFormed := by
  rw [deterministic]
  split
  · exact h
  · exact wellFormed_determinize h

theorem deterministic_deterministic : a.deterministic.Deterministic := by
  rw [deterministic]
  split
  · next hdet => exact isDeterministic_iff.mp hdet
  · exact deterministic_determinize h

theorem accepts_deterministic : a.deterministic.Accepts word ↔ a.Accepts word := by
  rw [deterministic]
  split
  · rfl
  · exact accepts_determinize h

/-- No new symbols come in: determinization keeps useful states only, so each of its transitions is
part of an accepted word. -/
theorem mem_alphabet_of_deterministic (ht : t ∈ a.deterministic.targets s c) : c ∈ a.alphabet := by
  rw [deterministic] at ht
  split at ht
  · exact mem_alphabet ht
  · obtain ⟨⟨i, word, hi, hpath⟩, -⟩ :=
      useful_determinize h ((wellFormed_determinize h).mem_of_source ht)
    obtain ⟨-, rest, hrest⟩ := useful_determinize h ((wellFormed_determinize h).mem_of_target ht)
    have hacc : a.determinize.Accepts (word ++ c :: rest) :=
      accepts_iff.mpr ⟨i, hi, .of_path hpath (acceptsFrom_cons.mpr ⟨t, ht, hrest⟩)⟩
    obtain ⟨i', -, hacc'⟩ := accepts_iff.mp ((accepts_determinize h).mp hacc)
    exact hacc'.mem_alphabet c (List.mem_append_right _ List.mem_cons_self)

end Deterministic

/-! ## The completed copy -/

/-- The automaton is well-formed, deterministic and complete over the alphabet, and there is a sink at
the place that comes along. -/
structure Completed.Total (d : Completed) (alphabet : List Char) : Prop where
  wellFormed : d.automaton.WellFormed
  deterministic : d.automaton.Deterministic
  complete : d.automaton.CompleteOver alphabet
  sink_lt : d.sink < d.automaton.numStates
  isSink : d.automaton.IsSink (d.automaton.stateAt d.sink)

section Completed

variable (h : a.WellFormed)

include h

theorem total_completed : (a.completed alphabet).Total alphabet := by
  have hd := wellFormed_deterministic h
  have hdet := deterministic_deterministic h
  obtain ⟨i, hi, hlt, hstate⟩ := exists_idxOf? (a := (a.completed alphabet).automaton)
    (s := a.deterministic.sinkState) (mem_states_addState.mpr (Or.inr rfl))
  have hsink : (a.completed alphabet).sink = i := by
    show ((a.completed alphabet).automaton.states.idxOf? a.deterministic.sinkState).getD 0 = i
    rw [hi, Option.getD_some]
  refine ⟨wellFormed_completeOver hd, deterministic_completeOver hd hdet,
    completeOver_completeOver hd hdet, hsink ▸ hlt, ?_⟩
  rw [hsink, hstate]
  exact isSink_completeOver hd (isSink_sinkState hd)

theorem accepts_completed : (a.completed alphabet).automaton.Accepts word ↔ a.Accepts word := by
  have hd := wellFormed_deterministic h
  exact (accepts_completeOver hd (isSink_sinkState hd)).trans (accepts_deterministic h)

/-- Over its own alphabet no symbol gets lost, not even one that led to dead states only. -/
theorem alphabet_completed : (a.completed a.alphabet).automaton.alphabet = a.alphabet := by
  have hd := wellFormed_deterministic h
  refine alphabet_completeOver hd fun c hc => ?_
  obtain ⟨s, t, ht⟩ := hd.exists_of_mem_alphabet hc
  exact mem_alphabet_of_deterministic h ht

/-- The symbols of the copy are those that were to be completed, if these include all that the automaton
has; other symbols lead nowhere. -/
theorem targets_completed_eq_nil (hsub : ∀ c ∈ a.alphabet, c ∈ alphabet) (hc : c ∉ alphabet) :
    (a.completed alphabet).automaton.targets s c = [] := by
  have hd := wellFormed_deterministic h
  refine List.eq_nil_iff_forall_not_mem.mpr fun t ht => hc ?_
  rcases (mem_alphabet_completeOver hd).mp (mem_alphabet ht) with hold | hnew
  · obtain ⟨s, t, ht⟩ := hd.exists_of_mem_alphabet hold
    exact hsub c (mem_alphabet_of_deterministic h ht)
  · exact hnew

end Completed

section Total

variable {d : Completed} (h : d.Total alphabet)

include h

/-- On every symbol of the alphabet the sink leads to itself alone. -/
theorem Completed.Total.targets_sink (hc : c ∈ alphabet) :
    d.automaton.targets (d.automaton.stateAt d.sink) c = [d.automaton.stateAt d.sink] := by
  obtain ⟨t, ht⟩ := List.length_eq_one_iff.mp (h.complete _ (stateAt_mem h.sink_lt) c hc)
  rw [ht, h.isSink.2 c t (ht ▸ List.mem_singleton_self t)]

end Total

/-- **Complete deterministic copies.** Over any alphabet that includes the symbols of the automaton the copy
is well-formed and deterministic, with exactly one target for each state and symbol of the alphabet and none
on other symbols. It accepts the same words, and at the place that comes along there is a state that rejects
and leads to itself alone, whatever states of the automaton are named like sinks. -/
theorem completed_spec (h : a.WellFormed) (hsub : ∀ c ∈ a.alphabet, c ∈ alphabet) :
    (a.completed alphabet).automaton.WellFormed ∧
      (a.completed alphabet).automaton.isDeterministic = true ∧
      (∀ s ∈ (a.completed alphabet).automaton.states, ∀ c,
        ((a.completed alphabet).automaton.targets s c).length = if c ∈ alphabet then 1 else 0) ∧
      (∀ word, (a.completed alphabet).automaton.acceptsWord word = a.acceptsWord word) ∧
      ∃ sink, (a.completed alphabet).automaton.states[(a.completed alphabet).sink]? = some sink ∧
        sink ∉ (a.completed alphabet).automaton.accepting ∧
        ∀ c, (a.completed alphabet).automaton.targets sink c =
          if c ∈ alphabet then [sink] else [] := by
  have htotal : (a.completed alphabet).Total alphabet := total_completed h
  refine ⟨htotal.wellFormed, isDeterministic_iff.mpr htotal.deterministic, fun s hs c => ?_,
    fun word => acceptsWord_eq_of_iff (accepts_completed h),
    _, getElem?_states htotal.sink_lt, htotal.isSink.1, fun c => ?_⟩
  · split
    · next hc => exact htotal.complete s hs c hc
    · next hc => rw [targets_completed_eq_nil h hsub hc, List.length_nil]
  · split
    · next hc => exact htotal.targets_sink hc
    · next hc => exact targets_completed_eq_nil h hsub hc

/-- A deterministic automaton that leaves gaps and in which the first two names for a sink belong to an
accepting state and to one that leads elsewhere. -/
def sinksInUse : Automaton :=
  empty.changeAll [.addStates ["A", sinkName, sinkName ++ "_"], .addTransition "A" 'a' sinkName,
    .addTransition sinkName 'b' (sinkName ++ "_"), .addTransition (sinkName ++ "_") 'a' "A",
    .accept sinkName]

theorem wellFormed_sinksInUse : sinksInUse.WellFormed :=
  wellFormed_changeAll wellFormed_empty _

theorem completed_spec_sinksInUse :
    sinksInUse.WellFormed ∧ (∀ c ∈ sinksInUse.alphabet, c ∈ ['c', 'b', 'a']) ∧
      sinksInUse.isDeterministic = true ∧ sinksInUse.sinkState = sinkName ++ "__" ∧
      (sinksInUse.completed ['c', 'b', 'a']).sink = 3 ∧
      (sinksInUse.completed ['c', 'b', 'a']).automaton.WellFormed ∧
      (sinksInUse.completed ['c', 'b', 'a']).automaton.isDeterministic = true ∧
      (∀ s ∈ (sinksInUse.completed ['c', 'b', 'a']).automaton.states, ∀ c,
        ((sinksInUse.completed ['c', 'b', 'a']).automaton.targets s c).length =
          if c ∈ ['c', 'b', 'a'] then 1 else 0) ∧
      (∀ word, (sinksInUse.completed ['c', 'b', 'a']).automaton.acceptsWord word =
        sinksInUse.acceptsWord word) ∧
      ∃ sink, (sinksInUse.completed ['c', 'b', 'a']).automaton.states[
          (sinksInUse.completed ['c', 'b', 'a']).sink]? = some sink ∧
        sink ∉ (sinksInUse.completed ['c', 'b', 'a']).automaton.accepting ∧
        ∀ c, (sinksInUse.completed ['c', 'b', 'a']).automaton.targets sink c =
          if c ∈ ['c', 'b', 'a'] then [sink] else [] := by
  have halphabet : sinksInUse.alphabet = ['a', 'b'] := by decide
  have hsub : ∀ c ∈ sinksInUse.alphabet, c ∈ ['c', 'b', 'a'] := by simp [halphabet]
  exact ⟨wellFormed_sinksInUse, hsub, by decide, by decide +kernel, by decide +kernel,
    completed_spec wellFormed_sinksInUse hsub⟩

/-! ## The initial state of the copy -/

/-- The automaton is deterministic and has no initial state, and its sink is one of its states. It is
copied and not determinized then, and no state is added that could become initial. -/
def Stuck (a : Automaton) : Prop :=
  a.isDeterministic = true ∧ a.initial = none ∧ a.sinkState ∈ a.states

theorem initial_completed_eq_none_iff (h : a.WellFormed) :
    (a.completed alphabet).automaton.initial = none ↔ a.Stuck := by
  refine initial_completeOver_eq_none_iff.trans ?_
  rw [Stuck, deterministic]
  split
  · next hdet => exact (and_iff_right hdet).symm
  · next hdet =>
    have hfree := sinkName_not_mem_determinize h
    refine iff_of_false (fun hstuck => ?_) fun hstuck => hdet hstuck.1
    exact hfree (sinkState_eq hfree ▸ hstuck.2)

/-- A sink that is left behind when the state it was made for is removed. -/
def sinkAlone : Automaton :=
  empty.changeAll [.addState "A", .addTransition "A" 'y' "A", .complete, .removeState "A"]

theorem wellFormed_sinkAlone : sinkAlone.WellFormed :=
  wellFormed_changeAll wellFormed_empty _

/-! ## Running by places -/

namespace Completed

variable {d : Completed} {alphabet : List Char} {i : Nat} {c : Char} {word : List Char}

/-- The place that a symbol leads to. -/
def next (d : Completed) (i : Nat) (c : Char) : Nat :=
  d.automaton.nextPlace d.sink i c

/-- The place that a word leads to. -/
def run (d : Completed) (i : Nat) (word : List Char) : Nat :=
  word.foldl d.next i

/-- Is there an accepting state at a place? -/
def acceptsAt (d : Completed) (i : Nat) : Bool :=
  d.automaton.isAccepting (d.automaton.stateAt i)

namespace Total

variable (h : d.Total alphabet)

include h

theorem next_lt : d.next i c < d.automaton.numStates :=
  nextPlace_lt h.wellFormed h.sink_lt

theorem acceptsAt_run : d.acceptsAt (d.run i word) = true ↔
    d.automaton.AcceptsFrom (d.automaton.stateAt i) word := by
  induction word generalizing i with
  | nil => rw [acceptsFrom_nil, run, List.foldl_nil, acceptsAt, isAccepting, decide_eq_true_eq]
  | cons c word ih =>
    rw [← acceptsFrom_nextPlace h.wellFormed h.deterministic h.isSink.not_live]
    exact ih

theorem start_cases : d.automaton.initial = none ∧ d.start = d.sink ∨
    ∃ s, d.automaton.initial = some s ∧ d.start < d.automaton.numStates ∧
      d.automaton.stateAt d.start = s := by
  rw [start]
  cases hi : d.automaton.initial with
  | none => exact Or.inl ⟨rfl, rfl⟩
  | some s =>
    obtain ⟨i, hplace, hlt, hstate⟩ := exists_idxOf? (h.wellFormed.initial_mem hi)
    rw [Option.bind_some, hplace, Option.getD_some]
    exact Or.inr ⟨s, rfl, hlt, hstate⟩

theorem start_lt : d.start < d.automaton.numStates := by
  rcases h.start_cases with ⟨-, hstart⟩ | ⟨s, -, hlt, -⟩
  · exact hstart ▸ h.sink_lt
  · exact hlt

theorem accepts_iff : d.automaton.Accepts word ↔ d.acceptsAt (d.run d.start word) = true := by
  rw [h.acceptsAt_run, Automaton.accepts_iff]
  rcases h.start_cases with ⟨hinitial, hstart⟩ | ⟨s, hinitial, -, hstate⟩
  · rw [hinitial, hstart]
    simpa using h.isSink.not_acceptsFrom
  · rw [hinitial, hstate]
    simp

end Total

end Completed

end RegularSets.Automaton
