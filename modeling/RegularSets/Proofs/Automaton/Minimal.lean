import Mathlib.Combinatorics.Enumerative.DoubleCounting
import RegularSets.Proofs.Automaton.Minimize

/-!
# Minimal automata

A deterministic automaton is called minimal here if all its states are reachable and live and no two
of them accept the same words. Each of its states then has its like in every deterministic automaton
for the same words, namely the state that the same word leads to (`Minimal.exists_like`), and no state
over there is the like of two. So there are no fewer states over there (`Minimal.numStates_le`).
If both automata are minimal, being alike is an isomorphism (`Minimal.exists_isomorphism`).
Minimization makes an automaton that is minimal in this sense, so it makes the same graph of all
automata for the same words.
-/

namespace RegularSets.Automaton

variable {a b : Automaton} {s : State}

/-- There is one state for each set of words that can be accepted after some word, but for the empty
set. -/
structure Minimal (a : Automaton) : Prop where
  wellFormed : a.WellFormed
  deterministic : a.Deterministic
  useful : ∀ s ∈ a.states, a.Reachable s ∧ a.Live s
  distinct : ∀ s ∈ a.states, ∀ t ∈ a.states, SameWords a s a t → s = t

namespace Minimal

variable (h : a.Minimal) (hb : b.WellFormed) (hdet : b.Deterministic)
  (hsame : ∀ word, a.Accepts word ↔ b.Accepts word)

include h hb hdet hsame

theorem exists_like (hs : s ∈ a.states) : ∃ t ∈ b.states, SameWords a s b t := by
  obtain ⟨⟨i, word, hi, hpath⟩, hlive⟩ := h.useful s hs
  obtain ⟨j, hj, hinitial⟩ := exists_initial_sameWords hsame hi (hlive.of_path hpath)
  obtain ⟨t, hpath', hlike⟩ := h.deterministic.exists_like hdet hinitial hpath hlive
  exact ⟨t, hb.mem_of_path (hb.initial_mem hj) hpath', hlike⟩

/-- No deterministic automaton for the same words has fewer states, whether its transitions are total
or not. -/
theorem numStates_le : a.numStates ≤ b.numStates := by
  have hcard : a.states.toFinset.card ≤ b.states.toFinset.card := by
    refine Finset.card_le_card_of_forall_subsingleton (fun s t => SameWords a s b t)
      (fun s hs => ?_) (fun t _ s hs s' hs' => ?_)
    · obtain ⟨t, ht, hlike⟩ := h.exists_like hb hdet hsame (List.mem_toFinset.mp hs)
      exact ⟨t, List.mem_toFinset.mpr ht, hlike⟩
    · obtain ⟨hs, hlike⟩ := hs
      obtain ⟨hs', hlike'⟩ := hs'
      exact h.distinct s (List.mem_toFinset.mp hs) s' (List.mem_toFinset.mp hs')
        (hlike.trans hlike'.symm)
  rwa [List.toFinset_card_of_nodup h.wellFormed.nodup_states,
    List.toFinset_card_of_nodup hb.nodup_states] at hcard

end Minimal

/-! ## Isomorphism -/

namespace Minimal

variable (ha : a.Minimal) (hb : b.Minimal)

include hb in
/-- A state that is live is the only one with its words. -/
theorem eq_of_sameWords (hs : b.Live s) (hsame : SameWords b s b t) : s = t :=
  hb.distinct s (hb.wellFormed.mem_of_live hs) t (hb.wellFormed.mem_of_live (hsame.live hs)) hsame

include ha hb

/-- Symbols lead from like states to like states, or from neither of them anywhere. -/
theorem targets_of_like {f : State → State} (hf : ∀ s ∈ a.states, SameWords a s b (f s))
    (hs : s ∈ a.states) (c : Char) : b.targets (f s) c = (a.targets s c).map f := by
  cases htargets : a.targets s c with
  | nil =>
    refine List.eq_nil_iff_forall_not_mem.mpr fun t' ht' => ?_
    obtain ⟨-, word, hword⟩ := hb.useful t' (hb.wellFormed.mem_of_target ht')
    have hacc : a.AcceptsFrom s (c :: word) :=
      (hf s hs (c :: word)).mpr (acceptsFrom_cons.mpr ⟨t', ht', hword⟩)
    obtain ⟨t, ht, -⟩ := acceptsFrom_cons.mp hacc
    rw [htargets] at ht
    cases ht
  | cons t rest =>
    have ht : t ∈ a.targets s c := htargets ▸ List.mem_cons_self
    have hmem := ha.wellFormed.mem_of_target ht
    have hlive := (ha.useful t hmem).2
    obtain ⟨t', hpath, hlike⟩ :=
      ha.deterministic.exists_like hb.deterministic (hf s hs) (.cons ht (.nil t)) hlive
    obtain ⟨u, ht', hu⟩ := path_cons_iff.mp hpath
    obtain rfl : u = t' := path_nil_iff.mp hu
    have heq : f t = u := hb.eq_of_sameWords ((hf t hmem).live hlive) ((hf t hmem).symm.trans hlike)
    rw [← htargets, ha.deterministic.targets_eq ht, hb.deterministic.targets_eq ht',
      List.map_singleton, heq]

theorem initial_of_like (hsame : ∀ word, a.Accepts word ↔ b.Accepts word) {f : State → State}
    (hf : ∀ s ∈ a.states, SameWords a s b (f s)) : b.initial = a.initial.map f := by
  cases hi : a.initial with
  | none =>
    refine Option.eq_none_iff_forall_ne_some.mpr fun j hj => ?_
    obtain ⟨i, hi', -⟩ := exists_initial_sameWords (fun word => (hsame word).symm) hj
      (hb.useful j (hb.wellFormed.initial_mem hj)).2
    rw [hi] at hi'
    cases hi'
  | some i =>
    have hmem := ha.wellFormed.initial_mem hi
    have hlive := (ha.useful i hmem).2
    obtain ⟨j, hj, hlike⟩ := exists_initial_sameWords hsame hi hlive
    rw [hj, Option.map_some,
      hb.eq_of_sameWords ((hf i hmem).live hlive) ((hf i hmem).symm.trans hlike)]

/-- There is one minimal automaton for a language, up to the names and the order of its states. -/
theorem exists_isomorphism (hsame : ∀ word, a.Accepts word ↔ b.Accepts word) :
    Nonempty (Isomorphism a b) := by
  choose! f hmem hf using fun s (hs : s ∈ a.states) =>
    ha.exists_like hb.wellFormed hb.deterministic hsame hs
  refine ⟨{
    map := f
    injective := fun {s t} hs ht heq => ?_
    surjective := fun {t} ht => ?_
    map_mem := fun {s} => hmem s
    map_initial := ha.initial_of_like hb hsame hf
    accepting_iff := fun {s} hs => ?_
    map_targets := fun {s c} hs => ha.targets_of_like hb hf hs c }⟩
  · have hft : SameWords b (f s) a t := heq ▸ (hf t ht).symm
    exact ha.distinct s hs t ht ((hf s hs).trans hft)
  · obtain ⟨s, hs, hlike⟩ := hb.exists_like ha.wellFormed ha.deterministic
      (fun word => (hsame word).symm) ht
    exact ⟨s, hs, (hb.eq_of_sameWords (hb.useful t ht).2 (hlike.trans (hf s hs))).symm⟩
  · rw [← acceptsFrom_nil, ← acceptsFrom_nil]
    exact (hf s hs []).symm

end Minimal

/-! ## Minimization -/

theorem minimal_minimize (h : a.WellFormed) : a.minimize.Minimal where
  wellFormed := (reduced_minimize h).wellFormed
  deterministic := (reduced_minimize h).deterministic
  useful _ hs := useful_minimize h hs
  distinct := (reduced_minimize h).distinct

/-- **Minimization is minimal.** No well-formed deterministic automaton that accepts the same words,
complete or not, has fewer states than the minimal automaton. -/
theorem numStates_minimize_le (ha : a.WellFormed) (hb : b.WellFormed)
    (hdet : b.isDeterministic = true) (hsame : ∀ word, a.acceptsWord word = b.acceptsWord word) :
    a.minimize.numStates ≤ b.numStates := by
  refine (minimal_minimize ha).numStates_le hb (isDeterministic_iff.mp hdet) fun word => ?_
  rw [accepts_minimize ha, ← acceptsWord_iff, ← acceptsWord_iff, hsame]

/-- A deterministic automaton with more states and symbols than it needs. -/
def overlappingCompleted : Automaton :=
  overlapping.determinize.completeOver ['x', 'y', 'z'] sinkName

theorem numStates_minimize_le_overlapping :
    overlapping.WellFormed ∧ overlapping.isDeterministic = false ∧
      overlappingCompleted.WellFormed ∧ overlappingCompleted.isDeterministic = true ∧
      (∀ word, overlapping.acceptsWord word = overlappingCompleted.acceptsWord word) ∧
      overlapping.minimize.numStates ≤ overlappingCompleted.numStates := by
  have ha := wellFormed_overlapping
  have hd := wellFormed_determinize ha
  have hsink := hd.isSink_of_not_mem (sinkName_not_mem_determinize ha)
  have hb : overlappingCompleted.WellFormed := wellFormed_completeOver hd
  have hdet : overlappingCompleted.isDeterministic = true :=
    isDeterministic_iff.mpr (deterministic_completeOver hd (deterministic_determinize ha))
  have hsame : ∀ word, overlapping.acceptsWord word = overlappingCompleted.acceptsWord word :=
    fun _ => acceptsWord_eq_of_iff
      ((accepts_determinize ha).symm.trans (accepts_completeOver hd hsink).symm)
  exact ⟨ha, by decide, hb, hdet, hsame, numStates_minimize_le ha hb hdet hsame⟩

/-- **Minimization is canonical.** Well-formed automata that accept the same words, whatever their
states and alphabets are, become isomorphic: their minimal automata correspond state by state, with
the same initial state, the same accepting states and the same lists of targets. -/
theorem isomorphic_minimize (ha : a.WellFormed) (hb : b.WellFormed)
    (hsame : ∀ word, a.acceptsWord word = b.acceptsWord word) :
    Nonempty (Isomorphism a.minimize b.minimize) := by
  refine (minimal_minimize ha).exists_isomorphism (minimal_minimize hb) fun word => ?_
  rw [accepts_minimize ha, accepts_minimize hb, ← acceptsWord_iff, ← acceptsWord_iff, hsame]

/-- With a sink added the automaton is still nondeterministic, and has one more state and a symbol that
only leads there. -/
theorem isomorphic_minimize_overlapping :
    overlapping.WellFormed ∧ (overlapping.completeOver ['z'] sinkName).WellFormed ∧
      (overlapping.alphabet = ['x', 'y'] ∧
        (overlapping.completeOver ['z'] sinkName).alphabet = ['x', 'y', 'z']) ∧
      (∀ word, overlapping.acceptsWord word =
        (overlapping.completeOver ['z'] sinkName).acceptsWord word) ∧
      Nonempty (Isomorphism overlapping.minimize
        (overlapping.completeOver ['z'] sinkName).minimize) := by
  have ha := wellFormed_overlapping
  have hb : (overlapping.completeOver ['z'] sinkName).WellFormed := wellFormed_completeOver ha
  have hsink : overlapping.IsSink sinkName := ha.isSink_of_not_mem (by decide)
  have hsame : ∀ word, overlapping.acceptsWord word =
      (overlapping.completeOver ['z'] sinkName).acceptsWord word := fun _ =>
    acceptsWord_eq_of_iff (accepts_completeOver ha hsink).symm
  exact ⟨ha, hb, ⟨by decide, by decide⟩, hsame, isomorphic_minimize ha hb hsame⟩

end RegularSets.Automaton
