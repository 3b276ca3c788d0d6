import RegularSets.Proofs.Automaton.Change

/-!
# Changes that keep the accepted words

Three ways of changing an automaton in place neither win nor lose a word, each for a reason of its own.

Completing adds transitions to every state at once, but all of them lead to the sink, and from a sink
nothing is accepted. For this the state that is taken for the sink, if there is one of that name, must be
one (`complete_spec`); that the rest stays as it was, and that completing again changes nothing, needs no
such condition.

Renaming gives all states their new names at the same time. The names are distinct, so the new automaton
is an image of the old one even where a new name was the old name of another state (`rename_spec`).

Replacing a state throws its own transitions away. Nothing is lost if the state that takes its place
accepts the same words: by induction on the word, what was accepted from a state is accepted from the
state in its place (`replaceState_spec`).
-/

namespace RegularSets.Automaton

variable {a : Automaton} {old new : State}

/-! ## Completing -/

/-- **Completing.** Every state has a target on every symbol afterwards. The alphabet, the accepting states
and all targets that were there are kept, and so are the accepted words if the name of the sink is not
that of a state of another kind. Completing twice is completing once. -/
theorem complete_spec (h : a.WellFormed) (hsink : sinkName ∉ a.states ∨ a.IsSink sinkName) :
    (∀ s ∈ a.complete.states, ∀ c ∈ a.alphabet, a.complete.targets s c ≠ []) ∧
      a.complete.alphabet = a.alphabet ∧ a.complete.accepting = a.accepting ∧
      (∀ s c, a.targets s c ≠ [] → a.complete.targets s c = a.targets s c) ∧
      (∀ word, a.complete.acceptsWord word = a.acceptsWord word) ∧
      a.complete.complete = a.complete := by
  have hsink' : a.IsSink sinkName := hsink.elim h.isSink_of_not_mem id
  refine ⟨fun s hs c hc => targets_completeOver_ne_nil h hs hc,
    alphabet_completeOver h fun c hc => hc, accepting_completeOver, fun s c hne => ?_,
    fun word => acceptsWord_eq_of_iff (accepts_completeOver h hsink'), complete_complete h⟩
  exact (targets_completeOver h).trans (if_neg fun hmissing => hne hmissing.2.2)

/-- A sink that lacks one of its loops, and a state with two targets on a symbol and none on the other. -/
def halfLooped : Automaton :=
  empty.changeAll [.addStates ["A", sinkName, "B"], .addTransition "A" 'x' "A",
    .addTransition "A" 'x' "B", .addTransition "B" 'y' sinkName,
    .addTransition sinkName 'x' sinkName, .accept "B"]

theorem wellFormed_halfLooped : halfLooped.WellFormed :=
  wellFormed_changeAll wellFormed_empty _

theorem complete_spec_halfLooped :
    halfLooped.WellFormed ∧ (sinkName ∉ halfLooped.states ∨ halfLooped.IsSink sinkName) ∧
      sinkName ∈ halfLooped.states ∧ halfLooped.targets sinkName 'y' = [] ∧
      halfLooped.isDeterministic = false ∧
      (∀ s ∈ halfLooped.complete.states, ∀ c ∈ halfLooped.alphabet,
        halfLooped.complete.targets s c ≠ []) ∧
      halfLooped.complete.alphabet = halfLooped.alphabet ∧
      halfLooped.complete.accepting = halfLooped.accepting ∧
      (∀ s c, halfLooped.targets s c ≠ [] →
        halfLooped.complete.targets s c = halfLooped.targets s c) ∧
      (∀ word, halfLooped.complete.acceptsWord word = halfLooped.acceptsWord word) ∧
      halfLooped.complete.complete = halfLooped.complete := by
  have hsink : halfLooped.IsSink sinkName := isSink_iff.mp (by decide)
  exact ⟨wellFormed_halfLooped, Or.inr hsink, by decide, by decide, by decide,
    complete_spec wellFormed_halfLooped (Or.inr hsink)⟩

/-! ## Renaming -/

/-- **Renaming.** The `i`-th state gets the `i`-th name of the scheme, no two states get the same name, and
states, roles and ordered targets are carried over by this map; hence the accepted words are the same. -/
theorem rename_spec (h : a.WellFormed) (scheme : Naming) :
    (∀ i s, a.states[i]? = some s → a.newName scheme s = scheme.name i) ∧
      Renamed (a.newName scheme) a (a.rename scheme) ∧
      ∀ word, (a.rename scheme).acceptsWord word = a.acceptsWord word :=
  ⟨fun _ _ hi => newName_of_getElem? h hi, renamed_mapStates h (injectiveOn_newName h), fun _ =>
    acceptsWord_eq_of_iff ((Isomorphism.rename h scheme).accepts_iff h)⟩

/-- Two states that exchange their names, and one whose name is from the other scheme; the reading has left
the initial state. -/
def crossNamed : Automaton :=
  empty.changeAll [.addStates ["B", "A", "A_"], .addTransition "B" 'x' "A_",
    .addTransition "B" 'x' "A", .addTransition "A" 'y' "B", .accept "A", .read 'x']

theorem wellFormed_crossNamed : crossNamed.WellFormed :=
  wellFormed_changeAll wellFormed_empty _

theorem rename_spec_crossNamed :
    crossNamed.WellFormed ∧ crossNamed.current = some "A_" ∧
      (crossNamed.rename .canonical).states = ["A", "B", "C"] ∧
      (∀ i s, crossNamed.states[i]? = some s →
        crossNamed.newName .canonical s = Naming.canonical.name i) ∧
      Renamed (crossNamed.newName .canonical) crossNamed (crossNamed.rename .canonical) ∧
      ∀ word, (crossNamed.rename .canonical).acceptsWord word = crossNamed.acceptsWord word :=
  ⟨wellFormed_crossNamed, by decide, by decide, rename_spec wellFormed_crossNamed .canonical⟩

/-! ## Replacing a state by its like -/

/-- **Replacing.** If the same words are accepted from two states, then one of them may take the place of the
other: all other states remain, each of them accepts what it did, and so does the automaton. -/
theorem replaceState_spec (h : a.WellFormed) (hold : old ∈ a.states) (hnew : new ∈ a.states)
    (hne : old ≠ new) (hsame : SameWords a old a new) :
    (∀ word, (a.replaceState old new).acceptsWord word = a.acceptsWord word) ∧
      (∀ s, s ∈ (a.replaceState old new).states ↔ s ∈ a.states ∧ s ≠ old) ∧
      ∀ s ∈ (a.replaceState old new).states, SameWords (a.replaceState old new) s a s := by
  have hcan : a.canReplace old new = true := canReplace_iff.mpr ⟨hne, hold, hnew⟩
  have hstates : ∀ s, s ∈ (a.replaceState old new).states ↔ s ∈ a.states ∧ s ≠ old := fun _ =>
    mem_states_replaceState h hcan
  refine ⟨fun word => acceptsWord_eq_of_iff (accepts_replaceState h hcan hsame), hstates,
    fun s hs => ?_⟩
  exact sameWords_replaceState h hcan hsame ((hstates s).mp hs).2

/-- Two states that accept any number of `y`, with loops and with a transition from one to the other. -/
def twins : Automaton :=
  empty.changeAll [.addStates ["A", "B", "C"], .addTransition "A" 'x' "B",
    .addTransition "A" 'x' "C", .addTransition "B" 'y' "B", .addTransition "C" 'y' "B",
    .addTransition "C" 'y' "C", .accept "B", .accept "C"]

theorem wellFormed_twins : twins.WellFormed :=
  wellFormed_changeAll wellFormed_empty _

theorem sameWords_twins : SameWords twins "B" twins "C" := by
  have hB : ∀ {c t}, t ∈ twins.targets "B" c ↔ c = 'y' ∧ t = "B" := by
    intro c t
    have hsuccessors : twins.successors "B" = [('y', "B")] := by decide
    rw [← mem_successors, hsuccessors, List.mem_singleton, Prod.mk.injEq]
  have hC : ∀ {c t}, t ∈ twins.targets "C" c ↔ c = 'y' ∧ (t = "B" ∨ t = "C") := by
    intro c t
    have hsuccessors : twins.successors "C" = [('y', "B"), ('y', "C")] := by decide
    rw [← mem_successors, hsuccessors]
    simp [← and_or_left]
  intro word
  induction word with
  | nil =>
    rw [acceptsFrom_nil, acceptsFrom_nil]
    decide
  | cons c word ih =>
    rw [acceptsFrom_cons, acceptsFrom_cons]
    constructor
    · rintro ⟨t, ht, hacc⟩
      obtain ⟨rfl, rfl⟩ := hB.mp ht
      exact ⟨"B", hC.mpr ⟨rfl, Or.inl rfl⟩, hacc⟩
    · rintro ⟨t, ht, hacc⟩
      obtain ⟨rfl, rfl | rfl⟩ := hC.mp ht
      · exact ⟨"B", hB.mpr ⟨rfl, rfl⟩, hacc⟩
      · exact ⟨"B", hB.mpr ⟨rfl, rfl⟩, ih.mpr hacc⟩

theorem replaceState_spec_twins :
    twins.WellFormed ∧ "B" ∈ twins.states ∧ "C" ∈ twins.states ∧ "B" ≠ "C" ∧
      SameWords twins "B" twins "C" ∧ (twins.replaceState "B" "C").targets "A" 'x' = ["C"] ∧
      (∀ word, (twins.replaceState "B" "C").acceptsWord word = twins.acceptsWord word) ∧
      (∀ s, s ∈ (twins.replaceState "B" "C").states ↔ s ∈ twins.states ∧ s ≠ "B") ∧
      ∀ s ∈ (twins.replaceState "B" "C").states,
        SameWords (twins.replaceState "B" "C") s twins s :=
  ⟨wellFormed_twins, by decide, by decide, by decide, sameWords_twins, by decide +kernel,
    replaceState_spec wellFormed_twins (by decide) (by decide) (by decide) sameWords_twins⟩

end RegularSets.Automaton
