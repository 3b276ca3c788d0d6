import RegularSets.Automaton.Document
import RegularSets.Proofs.Automaton.Determinize

/-!
# Rounds of merging

Merging visits a list of states that it extends while it goes through it. That it comes to an end rests on
the bookkeeping alone (`Tracked`), which every settled symbol keeps (`continues_settle`), whatever automaton
it is about: states may stand there twice, targets may be no states or be repeated. Each merged state uses up
another set of at least two of the `n` places, so that there are fewer than `2 ^ n` states to visit.

A round is the visit of one state. As long as there is a state to visit the loop goes on, and from then on
further rounds change nothing (`rounds_eq_of_le`): any fuel that lasts for the states there are in the end
gives the same result, and `Automaton.merging` provides enough (`merging_spec`).
-/

namespace RegularSets

namespace Merging

variable {base : Automaton} {m m' m'' : Merging} {s : State} {entry : Char × List State} {i j : Nat}

/-! ## What a visit keeps -/

/-- The bookkeeping stays right, and no merge is forgotten. -/
structure Continues (base : Automaton) (m m' : Merging) : Prop where
  tracked : Tracked base m → Tracked base m'
  merges : m.merges <+: m'.merges

theorem Continues.refl (base : Automaton) (m : Merging) : Continues base m m :=
  ⟨id, List.prefix_rfl⟩

theorem Continues.trans (h : Continues base m m') (h' : Continues base m' m'') :
    Continues base m m'' :=
  ⟨fun htracked => h'.tracked (h.tracked htracked), h.merges.trans h'.merges⟩

theorem continues_settle : Continues base m (settle base s m entry) := by
  obtain ⟨c, targets⟩ := entry
  have hdirect : ∀ t, Continues base m (m.direct s c t) := fun t =>
    ⟨Tracked.direct, List.prefix_rfl⟩
  rcases settle_cases base m s c targets with
    ⟨-, heq⟩ | ⟨merge, -, -, heq⟩ | ⟨k, -, heq⟩ | ⟨hnew, hlen, heq⟩
  · rw [heq]
    exact .refl base m
  · rw [heq]
    exact hdirect merge.name
  · rw [heq]
    exact hdirect (base.stateAt k)
  · rw [heq]
    refine ⟨fun h => ?_, List.prefix_append _ _⟩
    exact (h.merge hnew pairwise_groupOf hlen h.groupOf_lt).direct

theorem continues_foldl_settle (entries : List (Char × List State)) :
    Continues base m (entries.foldl (settle base s) m) := by
  induction entries generalizing m with
  | nil => exact .refl base m
  | cons entry entries ih => exact continues_settle.trans ih

theorem continues_visit : Continues base m (m.visit base s) := by
  obtain ⟨entries, hvisit, -, -⟩ := exists_entries base m s
  rw [hvisit]
  exact continues_foldl_settle entries

theorem continues_visitFrom (fuel i : Nat) : Continues base m (visitFrom base fuel i m) := by
  induction fuel generalizing i m with
  | zero => exact .refl base m
  | succ fuel ih =>
    rw [visitFrom]
    split
    · exact .refl base m
    · exact continues_visit.trans (ih (i + 1))

/-! ## From one round to the next -/

/-- Behind the last state there is nothing to visit. -/
theorem visitFrom_of_le (h : m.result.numStates ≤ i) (fuel : Nat) : visitFrom base fuel i m = m := by
  cases fuel with
  | zero => rfl
  | succ fuel => rw [visitFrom, List.getElem?_eq_none_iff.mpr h]

theorem visitFrom_add (base : Automaton) (m : Merging) (i j k : Nat) :
    visitFrom base (j + k) i m = visitFrom base k (i + j) (visitFrom base j i m) := by
  induction j generalizing i m with
  | zero => rw [Nat.zero_add, Nat.add_zero, visitFrom]
  | succ j ih =>
    rw [Nat.succ_add, visitFrom, visitFrom]
    split
    · next hi =>
      have hle : m.result.numStates ≤ i := List.getElem?_eq_none_iff.mp hi
      exact (visitFrom_of_le (hle.trans (Nat.le_add_right i _)) k).symm
    · rw [ih, Nat.succ_add_eq_add_succ]

/-! ## The loop -/

/-- The merging after a number of rounds, or after the last one if there are not so many. -/
def rounds (base : Automaton) (i : Nat) : Merging :=
  visitFrom base i 0 { result := base, merges := [] }

theorem tracked_rounds (base : Automaton) (i : Nat) : Tracked base (rounds base i) :=
  (continues_visitFrom i 0).tracked (Tracked.start base)

/-- The bookkeeping is right, and no targets whatever stand for a place that the base does not have. -/
structure Sound (base : Automaton) (m : Merging) : Prop extends Tracked base m where
  groupOf_lt : ∀ targets, ∀ k ∈ m.groupOf base targets, k < base.numStates

theorem Tracked.sound (h : Tracked base m) : Sound base m :=
  { h with groupOf_lt := fun _ => h.groupOf_lt }

theorem rounds_add (base : Automaton) (i j : Nat) :
    rounds base (i + j) = visitFrom base j i (rounds base i) := by
  rw [rounds, visitFrom_add, Nat.zero_add, rounds]

theorem numStates_rounds_mono (h : i ≤ j) :
    (rounds base i).result.numStates ≤ (rounds base j).result.numStates := by
  obtain ⟨k, rfl⟩ := Nat.exists_eq_add_of_le h
  have hprefix : (rounds base i).merges <+: (rounds base (i + k)).merges := by
    rw [rounds_add]
    exact (continues_visitFrom k i).merges
  have hi := (tracked_rounds base i).length_states
  have hk := (tracked_rounds base (i + k)).length_states
  rw [Automaton.numStates, Automaton.numStates, hi, hk]
  exact Nat.add_le_add_left hprefix.length_le _

/-- A round visits the state whose turn it is. -/
theorem rounds_succ (h : (rounds base i).result.states[i]? = some s) :
    rounds base (i + 1) = (rounds base i).visit base s := by
  rw [rounds_add, visitFrom, h]
  rfl

/-- After a round for each state nothing changes any more. -/
theorem rounds_eq_of_le (h : (rounds base i).result.numStates ≤ i) (hij : i ≤ j) :
    rounds base j = rounds base i := by
  obtain ⟨k, rfl⟩ := Nat.exists_eq_add_of_le hij
  rw [rounds_add, visitFrom_of_le h]

end Merging

namespace Automaton

variable {a : Automaton} {i : Nat}

theorem merging_eq_rounds : a.merging = Merging.rounds a (a.numStates + 2 ^ a.numStates) :=
  rfl

theorem tracked_merging : Merging.Tracked a a.merging := by
  rw [merging_eq_rounds]
  exact Merging.tracked_rounds a _

/-- The fuel of the loop is more than the number of states there can be. -/
theorem numStates_merging_lt : a.merging.result.numStates < 2 ^ a.numStates :=
  tracked_merging.length_states_lt

/-- As many rounds as there are states in the end are enough, since there are no more states before. -/
theorem rounds_eq_merging (h : a.merging.result.numStates ≤ i) : Merging.rounds a i = a.merging := by
  have hfuel : a.merging.result.numStates ≤ a.numStates + 2 ^ a.numStates :=
    numStates_merging_lt.le.trans (Nat.le_add_left _ _)
  have hdone : (Merging.rounds a a.merging.result.numStates).result.numStates ≤
      a.merging.result.numStates := Merging.numStates_rounds_mono hfuel
  calc Merging.rounds a i
      = Merging.rounds a a.merging.result.numStates := Merging.rounds_eq_of_le hdone h
    _ = Merging.rounds a (a.numStates + 2 ^ a.numStates) :=
        (Merging.rounds_eq_of_le hdone hfuel).symm
    _ = a.merging := merging_eq_rounds.symm

/-- The loop goes on for as many rounds as there are states in the end. -/
theorem lt_numStates_rounds_iff :
    i < (Merging.rounds a i).result.numStates ↔ i < a.merging.result.numStates := by
  constructor
  · intro hi
    refine Nat.lt_of_not_le fun hle => ?_
    rw [rounds_eq_merging hle] at hi
    exact Nat.not_lt_of_le hle hi
  · intro hi
    refine Nat.lt_of_not_le fun hle => ?_
    have hsame : Merging.rounds a i = a.merging :=
      (Merging.rounds_eq_of_le hle hi.le).symm.trans (rounds_eq_merging (Nat.le_refl _))
    rw [hsame] at hle
    exact Nat.not_lt_of_le hle hi

/-- **Merging ends.** Of any automaton with `n` states, well-formed or not, the loop makes as many rounds as
there are states in the end, fewer than `2 ^ n`, and further rounds would change nothing. The states that are
added have names of their own, and each stands for a set of two or more places below `n` that no other
stands for. This holds after every symbol that is settled in any round, and at no time do any targets stand
for a place that is not below `n`. -/
theorem merging_spec (a : Automaton) :
    Merging.Sound a a.merging ∧ a.merging.result.numStates < 2 ^ a.numStates ∧
      (∀ i, i < (Merging.rounds a i).result.numStates ↔ i < a.merging.result.numStates) ∧
      (∀ i, a.merging.result.numStates ≤ i → Merging.rounds a i = a.merging) ∧
      ∀ i s, (Merging.rounds a i).result.states[i]? = some s → ∃ entries,
        Merging.rounds a (i + 1) = entries.foldl (Merging.settle a s) (Merging.rounds a i) ∧
          ∀ done, done <+: entries →
            Merging.Sound a (done.foldl (Merging.settle a s) (Merging.rounds a i)) := by
  refine ⟨tracked_merging.sound, numStates_merging_lt, fun i => lt_numStates_rounds_iff,
    fun i hi => rounds_eq_merging hi, fun i s hs => ?_⟩
  obtain ⟨entries, hvisit, -, -⟩ := Merging.exists_entries a (Merging.rounds a i) s
  refine ⟨entries, (Merging.rounds_succ hs).trans hvisit, fun done _ => ?_⟩
  have htracked : Merging.Tracked a (done.foldl (Merging.settle a s) (Merging.rounds a i)) :=
    (Merging.continues_foldl_settle done).tracked (Merging.tracked_rounds a i)
  exact htracked.sound

/-- A state that stands twice in the list, targets that are repeated or no states, one of them named like a
merged state to come, and a row of something that is no state. -/
def tangled : Automaton where
  states := ["A", "B", "A"]
  rows := Std.ExtTreeMap.ofList
    [("A", Std.ExtTreeMap.ofList [('x', ["B", "A", "C", "B"]), ('y', ["C", "C"]), ('z', ["A", "A"])]),
     ("B", Std.ExtTreeMap.ofList [('x', ["BA", "A"]), ('y', ["BA", "C"]), ('z', ["B", "C", "BA"])]),
     ("C", Std.ExtTreeMap.ofList [('x', ["A", "B"])])]
  initial := some "D"
  accepting := ["B", "B"]

theorem not_wellFormed_tangled : ¬ tangled.WellFormed :=
  fun h => absurd h.nodup_states (by decide)

theorem merging_spec_tangled :
    ofDocument? tangled.toDocument = some tangled ∧ ¬ tangled.WellFormed ∧
      tangled.merging.result.states = ["A", "B", "A", "BA"] ∧
      tangled.merging.merges.map (·.group) = [[1, 2]] ∧
      Merging.Sound tangled tangled.merging ∧
      tangled.merging.result.numStates < 2 ^ tangled.numStates ∧
      (∀ i, i < (Merging.rounds tangled i).result.numStates ↔ i < tangled.merging.result.numStates) ∧
      (∀ i, tangled.merging.result.numStates ≤ i → Merging.rounds tangled i = tangled.merging) ∧
      ∀ i s, (Merging.rounds tangled i).result.states[i]? = some s → ∃ entries,
        Merging.rounds tangled (i + 1) =
            entries.foldl (Merging.settle tangled s) (Merging.rounds tangled i) ∧
          ∀ done, done <+: entries →
            Merging.Sound tangled
              (done.foldl (Merging.settle tangled s) (Merging.rounds tangled i)) :=
  ⟨by decide +kernel, not_wellFormed_tangled, by decide +kernel, by decide +kernel,
    merging_spec tangled⟩

end Automaton

end RegularSets
