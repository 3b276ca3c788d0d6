import RegularSets.Proofs.Automaton.Edit
import RegularSets.Proofs.Naming

/-!
# Completing an automaton

A state that rejects and leads nowhere else is not live (`IsSink.not_live`). Sending the missing
transitions to such a state, or to a new one, therefore changes no word that is accepted from any state
(`sameWords_completeOver`). The name that is chosen for the sink is free or the name of a sink
(`isSink_sinkState`), so states that are named like one do no harm.

What completing does to the transitions is one equation (`targets_completeOver`): a target that is missing
is the sink afterwards, and the others stay. That the result is total (`targets_completeOver_ne_nil`), which
symbols it knows (`mem_alphabet_completeOver`) and that nothing is left to complete
(`completeOver_eq_self`) all follow from it.
-/

namespace RegularSets

namespace Row

variable {row : Row} {alphabet : List Char} {sink t : State} {c : Char} {states : List State}

/-- Only symbols that are not in the row get a new target. -/
theorem getElem?_fill :
    (fill alphabet sink row)[c]? =
      if c ∉ row ∧ c ∈ alphabet then some [sink] else row[c]? := by
  induction alphabet generalizing row with
  | nil => simp [fill]
  | cons d alphabet ih =>
    have hrest : (fill alphabet sink (row.insertIfNew d [sink]))[c]? = _ := ih
    refine hrest.trans ?_
    simp only [Std.ExtTreeMap.mem_insertIfNew, Std.ExtTreeMap.getElem?_insertIfNew,
      Std.LawfulEqCmp.compare_eq_iff_eq, List.mem_cons]
    by_cases hd : d = c
    · subst hd
      by_cases hrow : d ∈ row <;> simp [hrow]
    · simp [hd, Ne.symm hd]

theorem targets_fill :
    targets (fill alphabet sink row) c =
      if c ∉ row ∧ c ∈ alphabet then [sink] else targets row c := by
  rw [targets, getElem?_fill]
  split
  · rfl
  · rfl

theorem Fits.fill (h : Fits row states) (hsink : sink ∈ states) :
    Fits (fill alphabet sink row) states := by
  intro c ts hc
  rw [getElem?_fill] at hc
  split at hc
  · cases hc
    exact ⟨List.cons_ne_nil _ _, List.nodup_singleton _, by simpa using hsink⟩
  · exact h c ts hc

end Row

namespace Automaton

variable {a : Automaton} {alphabet : List Char} {sink s t : State} {c : Char} {word : List Char}

/-! ## Sinks -/

/-- The state rejects and leads to itself at most. A name that is no state has this property. -/
def IsSink (a : Automaton) (s : State) : Prop :=
  s ∉ a.accepting ∧ ∀ c, ∀ t ∈ a.targets s c, t = s

theorem IsSink.not_acceptsFrom (h : a.IsSink s) : ¬ a.AcceptsFrom s word := by
  induction word with
  | nil => exact fun hacc => h.1 (acceptsFrom_nil.mp hacc)
  | cons c word ih =>
    intro hacc
    obtain ⟨t, ht, hacc⟩ := acceptsFrom_cons.mp hacc
    exact ih (h.2 c t ht ▸ hacc)

theorem IsSink.not_live (h : a.IsSink s) : ¬ a.Live s :=
  fun ⟨_, hacc⟩ => h.not_acceptsFrom hacc

theorem WellFormed.isSink_of_not_mem (h : a.WellFormed) (hs : s ∉ a.states) : a.IsSink s := by
  refine ⟨mt h.accepting_mem hs, fun c t ht => ?_⟩
  rw [h.targets_of_not_mem hs] at ht
  cases ht

/-! ## The name of the sink -/

theorem isSink_iff : a.isSink s = true ↔ a.IsSink s := by
  simp only [isSink, isAccepting, Bool.and_eq_true, Bool.not_eq_true', decide_eq_false_iff_not,
    List.all_eq_true, decide_eq_true_eq, IsSink]
  refine and_congr_right fun _ => ⟨fun h c t ht => ?_, fun h p hp => ?_⟩
  · exact h (c, t) (mem_successors.mpr ht)
  · exact h p.1 p.2 (mem_successors.mp hp)

theorem isSink_sinkState (h : a.WellFormed) : a.IsSink a.sinkState := by
  have htaken : ∀ s, (a.hasState s && !a.isSink s) = true → s ∈ a.states := fun s hs =>
    of_decide_eq_true (Bool.and_eq_true_iff.mp hs).1
  have hfree : (a.hasState a.sinkState && !a.isSink a.sinkState) = false :=
    not_taken_freshName alternateMark htaken (Nat.le_refl a.numStates) sinkName
  by_cases hs : a.sinkState ∈ a.states
  · refine isSink_iff.mp ?_
    simpa [hasState, hs] using hfree
  · exact h.isSink_of_not_mem hs

theorem sinkState_eq (hs : sinkName ∉ a.states) : a.sinkState = sinkName := by
  rw [sinkState]
  cases a.numStates with
  | zero => rfl
  | succ fuel => simp [freshName, hasState, hs]

/-! ## Following first targets -/

/-- The place of the first target of the state at place `i`; `fallback` stands in for a missing one. -/
def nextPlace (a : Automaton) (fallback i : Nat) (c : Char) : Nat :=
  ((a.targets (a.stateAt i) c).head?.bind a.placeOf?).getD fallback

section NextPlace

variable {fallback i : Nat} (h : a.WellFormed)

include h

theorem nextPlace_lt (hlt : fallback < a.numStates) : a.nextPlace fallback i c < a.numStates := by
  rw [nextPlace]
  cases hplace : (a.targets (a.stateAt i) c).head?.bind a.placeOf? with
  | none => exact hlt
  | some j =>
    obtain ⟨t, -, ht⟩ := Option.bind_eq_some_iff.mp hplace
    exact (List.getElem?_eq_some_iff.mp (h.placeOf?_eq_some_iff.mp ht)).1

/-- The first targets go where a deterministic automaton goes, and to a dead state if it goes
nowhere. -/
theorem acceptsFrom_nextPlace (hdet : a.Deterministic) (hdead : ¬ a.Live (a.stateAt fallback)) :
    a.AcceptsFrom (a.stateAt (a.nextPlace fallback i c)) word ↔
      a.AcceptsFrom (a.stateAt i) (c :: word) := by
  rw [nextPlace]
  cases htargets : a.targets (a.stateAt i) c with
  | nil =>
    rw [acceptsFrom_cons, htargets]
    simpa using fun hacc => hdead ⟨word, hacc⟩
  | cons t ts =>
    have ht : t ∈ a.targets (a.stateAt i) c := htargets ▸ List.mem_cons_self
    obtain ⟨j, hj, hjt⟩ := exists_place (h.mem_of_target ht)
    have hplace : a.placeOf? t = some j := by
      rw [h.placeOf?_eq_some_iff, getElem?_states hj, hjt]
    rw [hdet.acceptsFrom_cons ht, List.head?_cons, Option.bind_some, hplace, Option.getD_some, hjt]

end NextPlace

/-! ## Filling the rows -/

section CompleteOver

variable (h : a.WellFormed)

theorem states_completeOver :
    (a.completeOver alphabet sink).states = (a.addState sink).states := rfl

theorem accepting_completeOver : (a.completeOver alphabet sink).accepting = a.accepting :=
  accepting_addState

/-- The new sink becomes the initial state if there is none; a sink that was there does not. -/
theorem initial_completeOver_eq_none_iff :
    (a.completeOver alphabet sink).initial = none ↔ a.initial = none ∧ sink ∈ a.states := by
  rw [completeOver, addState]
  split
  · next hs => simp [hs]
  · next hs => cases a.initial <;> simp [hs]

include h

theorem row_completeOver :
    (a.completeOver alphabet sink).row s =
      if s ∈ a.states ∨ s = sink then Row.fill alphabet sink (a.row s) else ∅ := by
  have hb := wellFormed_addState (s := sink) h
  simp only [row, completeOver, Std.ExtTreeMap.getElem?_map, ← mem_states_addState]
  rw [← row, ← row_addState (s := sink) h]
  split
  · next hs =>
    rw [getElem?_rows ((hb.mem_rows_iff s).mpr hs)]
    rfl
  · next hs =>
    rw [Std.ExtTreeMap.getElem?_eq_none (mt (hb.mem_rows_iff s).mp hs)]
    rfl

/-- A missing target is the sink now, and all others are as they were. -/
theorem targets_completeOver :
    (a.completeOver alphabet sink).targets s c =
      if (s ∈ a.states ∨ s = sink) ∧ c ∈ alphabet ∧ a.targets s c = [] then [sink]
      else a.targets s c := by
  rw [targets, row_completeOver h]
  by_cases hs : s ∈ a.states ∨ s = sink
  · have hmissing : c ∉ a.row s ∧ c ∈ alphabet ↔
        (s ∈ a.states ∨ s = sink) ∧ c ∈ alphabet ∧ a.targets s c = [] := by
      rw [(h.row_fits s).mem_iff, not_not, and_iff_right hs, and_comm, targets]
    rw [if_pos hs, Row.targets_fill]
    exact if_congr hmissing rfl rfl
  · rw [if_neg hs, if_neg fun hmissing => hs hmissing.1, Row.targets_empty,
      h.targets_of_not_mem fun hmem => hs (Or.inl hmem)]

theorem mem_targets_completeOver :
    t ∈ (a.completeOver alphabet sink).targets s c ↔
      t ∈ a.targets s c ∨
        t = sink ∧ (s ∈ a.states ∨ s = sink) ∧ c ∈ alphabet ∧ a.targets s c = [] := by
  rw [targets_completeOver h]
  split
  · next hmissing => simp [hmissing]
  · next hmissing => exact (or_iff_left fun ht => hmissing ht.2).symm

theorem wellFormed_completeOver : (a.completeOver alphabet sink).WellFormed := by
  have hb := wellFormed_addState (s := sink) h
  refine .of_fits hb.nodup_states (fun s => ?_) (fun s hs => ?_) hb.nodup_accepting
    (fun s => hb.accepting_mem) (fun s => hb.initial_mem) (fun s => hb.current_mem)
  · rw [completeOver, Std.ExtTreeMap.mem_map, hb.mem_rows_iff]
  · rw [states_completeOver] at hs ⊢
    rw [row_completeOver h, if_pos (mem_states_addState.mp hs)]
    rw [← row_addState (s := sink) h]
    exact (hb.row_fits s).fill (mem_states_addState.mpr (Or.inr rfl))

theorem deterministic_completeOver (hdet : a.Deterministic) :
    (a.completeOver alphabet sink).Deterministic := by
  intro s c
  rw [targets_completeOver h]
  split
  · exact Nat.le_refl 1
  · exact hdet s c

theorem targets_completeOver_ne_nil (hs : s ∈ (a.completeOver alphabet sink).states)
    (hc : c ∈ alphabet) :
    (a.completeOver alphabet sink).targets s c ≠ [] := by
  rw [states_completeOver, mem_states_addState] at hs
  rw [targets_completeOver h]
  split
  · exact List.cons_ne_nil _ _
  · next hmissing => exact fun hnil => hmissing ⟨hs, hc, hnil⟩

/-- Completing makes complete: there was one target at most, and now there is one at least. -/
theorem completeOver_completeOver (hdet : a.Deterministic) :
    (a.completeOver alphabet sink).CompleteOver alphabet := fun s hs c hc =>
  Nat.le_antisymm (deterministic_completeOver h hdet s c)
    (List.length_pos_iff.mpr (targets_completeOver_ne_nil h hs hc))

/-- Nothing is completed if the sink is there and no target is missing. -/
theorem completeOver_eq_self (hmem : sink ∈ a.states)
    (hfull : ∀ s ∈ a.states, ∀ c ∈ alphabet, a.targets s c ≠ []) :
    a.completeOver alphabet sink = a := by
  have hadd : a.addState sink = a := if_pos hmem
  have hstates := congrArg Automaton.states hadd
  have hinitial := congrArg Automaton.initial hadd
  have hcurrent := congrArg Automaton.current hadd
  refine (wellFormed_completeOver h).ext h hstates (fun s c => ?_) hinitial accepting_completeOver
    hcurrent
  rw [targets_completeOver h, if_neg]
  rintro ⟨hs, hc, hnil⟩
  exact hfull s (hs.elim id fun heq => heq ▸ hmem) c hc hnil

/-- Every symbol that is completed over leads somewhere from the sink, and no other symbol is new. -/
theorem mem_alphabet_completeOver :
    c ∈ (a.completeOver alphabet sink).alphabet ↔ c ∈ a.alphabet ∨ c ∈ alphabet := by
  constructor
  · intro hc
    obtain ⟨s, t, ht⟩ := (wellFormed_completeOver h).exists_of_mem_alphabet hc
    rcases (mem_targets_completeOver h).mp ht with ht | ⟨-, -, hc, -⟩
    · exact Or.inl (mem_alphabet ht)
    · exact Or.inr hc
  · rintro (hc | hc)
    · obtain ⟨s, t, ht⟩ := h.exists_of_mem_alphabet hc
      exact mem_alphabet ((mem_targets_completeOver h).mpr (Or.inl ht))
    · have hmem : sink ∈ (a.completeOver alphabet sink).states :=
        mem_states_addState.mpr (Or.inr rfl)
      obtain ⟨t, ht⟩ := List.exists_mem_of_ne_nil _ (targets_completeOver_ne_nil h hmem hc)
      exact mem_alphabet ht

/-- Completing over the symbols of an automaton that has at least as many gives them all. -/
theorem alphabet_completeOver {b : Automaton} (hsub : ∀ c ∈ a.alphabet, c ∈ b.alphabet) :
    (a.completeOver b.alphabet sink).alphabet = b.alphabet :=
  alphabet_congr fun c => (mem_alphabet_completeOver h).trans (or_iff_right_of_imp (hsub c))

/-- What was completed once is complete. -/
theorem complete_complete : a.complete.complete = a.complete := by
  have halphabet : a.complete.alphabet = a.alphabet := alphabet_completeOver h fun _ hc => hc
  show a.complete.completeOver a.complete.alphabet sinkName = a.complete
  rw [halphabet]
  exact completeOver_eq_self (wellFormed_completeOver h) (mem_states_addState.mpr (Or.inr rfl))
    fun _ hs _ hc => targets_completeOver_ne_nil h hs hc

variable (hsink : a.IsSink sink)

include hsink

theorem isSink_completeOver : (a.completeOver alphabet sink).IsSink sink := by
  refine ⟨by simpa [accepting_completeOver] using hsink.1, fun c t ht => ?_⟩
  rcases (mem_targets_completeOver h).mp ht with ht | ⟨rfl, -⟩
  · exact hsink.2 c t ht
  · rfl

/-- The new transitions lead to a sink, so no state accepts more than before. -/
theorem sameWords_completeOver : SameWords (a.completeOver alphabet sink) s a s := by
  intro word
  induction word generalizing s with
  | nil => rw [acceptsFrom_nil, acceptsFrom_nil, accepting_completeOver]
  | cons c word ih =>
    simp only [acceptsFrom_cons, mem_targets_completeOver h]
    constructor
    · rintro ⟨t, ht | ⟨rfl, -⟩, hacc⟩
      · exact ⟨t, ht, ih.mp hacc⟩
      · exact absurd (ih.mp hacc) hsink.not_acceptsFrom
    · rintro ⟨t, ht, hacc⟩
      exact ⟨t, Or.inl ht, ih.mpr hacc⟩

theorem accepts_completeOver : (a.completeOver alphabet sink).Accepts word ↔ a.Accepts word := by
  have hwords : ∀ {s}, (a.completeOver alphabet sink).AcceptsFrom s word ↔ a.AcceptsFrom s word :=
    sameWords_completeOver h hsink word
  simp only [accepts_iff, hwords]
  constructor
  · rintro ⟨i, hi, hacc⟩
    refine ⟨i, ?_, hacc⟩
    -- the sink becomes initial if nothing else is, but it accepts nothing
    rw [completeOver, addState] at hi
    split at hi
    · exact hi
    · split at hi
      · exact absurd hacc (Option.some.inj hi ▸ hsink.not_acceptsFrom)
      · exact hi
  · rintro ⟨i, hi, hacc⟩
    exact ⟨i, initial_addState hi, hacc⟩

end CompleteOver

end Automaton

end RegularSets
