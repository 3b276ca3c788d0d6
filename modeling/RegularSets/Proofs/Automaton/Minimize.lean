import RegularSets.Automaton.Minimize
import RegularSets.Proofs.Automaton.Complete
import RegularSets.Proofs.Automaton.Determinize
import RegularSets.Proofs.Refinement.Coarsest

/-!
# Minimization

The table of a complete deterministic automaton runs like the automaton itself, so two states end in
the same block exactly if the same words are accepted from them (`equivalent_table_iff`). The merges put
one state of each block in the place of the others, one after the other; each of them is between
states that still accept the same words, so what a remaining state accepts never changes
(`Collapsed`). No two remaining states accept the same words, and this is why they are all reachable:
the word that led to a state before leads to a state with the same words now, and that is the state
itself (`minimize_spec`).
-/

namespace RegularSets.Automaton

variable {a : Automaton} {alphabet : List Char} {fallback i j k : Nat} {c : Char} {s t : State}

/-! ## The table of an automaton -/

section Table

theorem next_table (h : fallback < a.numStates) (hi : i < a.numStates) (hk : alphabet[k]? = some c) :
    (a.table alphabet fallback h).next i k = a.nextPlace fallback i c := by
  simp [table, targetPlaces, nextPlace, getElem?_states hi, hk]

theorem final_table (h : fallback < a.numStates) (hi : i < a.numStates) :
    (a.table alphabet fallback h).final i = a.isAccepting (a.stateAt i) := by
  simp [table, getElem?_states hi]

/-- The numbers of a word's symbols in an alphabet. -/
def Spells (alphabet : List Char) (numbers : List Nat) (word : List Char) : Prop :=
  List.Forall₂ (fun k c => alphabet[k]? = some c) numbers word

theorem exists_spells_of_lt {numbers : List Nat} (h : ∀ k ∈ numbers, k < alphabet.length) :
    ∃ word, Spells alphabet numbers word := by
  induction numbers with
  | nil => exact ⟨[], .nil⟩
  | cons k numbers ih =>
    obtain ⟨word, hword⟩ := ih fun k' hk' => h k' (List.mem_cons_of_mem k hk')
    have hk := h k List.mem_cons_self
    exact ⟨alphabet.get ⟨k, hk⟩ :: word, .cons (List.getElem?_eq_getElem hk) hword⟩

theorem exists_spells_of_mem {word : List Char} (h : ∀ c ∈ word, c ∈ alphabet) :
    ∃ numbers, Spells alphabet numbers word := by
  induction word with
  | nil => exact ⟨[], .nil⟩
  | cons c word ih =>
    obtain ⟨numbers, hnumbers⟩ := ih fun c' hc' => h c' (List.mem_cons_of_mem c hc')
    obtain ⟨k, hk⟩ := List.mem_iff_getElem?.mp (h c List.mem_cons_self)
    exact ⟨k :: numbers, .cons hk hnumbers⟩

theorem Spells.lt {numbers : List Nat} {word : List Char} (h : Spells alphabet numbers word) :
    ∀ k ∈ numbers, k < alphabet.length := by
  induction h with
  | nil => exact nofun
  | cons hk _ ih => exact List.forall_mem_cons.mpr ⟨(List.getElem?_eq_some_iff.mp hk).1, ih⟩

variable (ha : a.WellFormed) (hdet : a.Deterministic) (h : fallback < a.numStates)
  (hdead : ¬ a.Live (a.stateAt fallback))

include ha hdet hdead

/-- The table runs like the automaton, but for words that lead nowhere. -/
theorem final_run_iff {numbers : List Nat} {word : List Char}
    (hspells : Spells alphabet numbers word) (hi : i < a.numStates) :
    (a.table alphabet fallback h).final ((a.table alphabet fallback h).run i numbers) = true ↔
      a.AcceptsFrom (a.stateAt i) word := by
  induction hspells generalizing i with
  | nil =>
    rw [acceptsFrom_nil, Table.run, List.foldl_nil, final_table h hi, isAccepting,
      decide_eq_true_eq]
  | cons hk _ ih =>
    have hlt := (List.getElem?_eq_some_iff.mp hk).1
    rw [← acceptsFrom_nextPlace ha hdet hdead, ← next_table h hi hk]
    exact ih ((a.table alphabet fallback h).next_lt hi hlt)

/-- States of the table are equivalent exactly if they accept the same words, be they words over the
alphabet of the automaton or not. -/
theorem equivalent_table_iff (hi : i < a.numStates) (hj : j < a.numStates) :
    (a.table a.alphabet fallback h).Equivalent i j ↔ SameWords a (a.stateAt i) a (a.stateAt j) := by
  constructor
  · intro hequiv word
    by_cases hword : ∀ c ∈ word, c ∈ a.alphabet
    · obtain ⟨numbers, hspells⟩ := exists_spells_of_mem hword
      rw [← final_run_iff ha hdet h hdead hspells hi, ← final_run_iff ha hdet h hdead hspells hj,
        hequiv numbers hspells.lt]
    · exact iff_of_false (mt AcceptsFrom.mem_alphabet hword) (mt AcceptsFrom.mem_alphabet hword)
  · intro hsame numbers hnumbers
    obtain ⟨word, hspells⟩ := exists_spells_of_lt hnumbers
    rw [Bool.eq_iff_iff, final_run_iff ha hdet h hdead hspells hi,
      final_run_iff ha hdet h hdead hspells hj]
    exact hsame word

end Table

/-! ## Merging states one after the other -/

/-- What merges of states that accept the same words leave behind when the states `gone` are gone. -/
structure Collapsed (a b : Automaton) (gone : List State) : Prop where
  wellFormed : b.WellFormed
  deterministic : a.Deterministic → b.Deterministic
  mem_states : ∀ s, s ∈ b.states ↔ s ∈ a.states ∧ s ∉ gone
  sameWords : ∀ s ∈ b.states, SameWords b s a s
  accepts : ∀ word, b.Accepts word ↔ a.Accepts word

theorem Collapsed.refl (h : a.WellFormed) : Collapsed a a [] :=
  ⟨h, id, by simp, fun _ _ _ => Iff.rfl, fun _ => Iff.rfl⟩

theorem Collapsed.replace {old new : State} {gone : List State} (h : a.WellFormed)
    (hcan : a.canReplace old new = true) (hsame : SameWords a old a new)
    {b : Automaton} (hrest : Collapsed (a.replaceState old new) b gone) :
    Collapsed a b (old :: gone) where
  wellFormed := hrest.wellFormed
  deterministic hdet := hrest.deterministic (deterministic_replaceState h hcan hdet)
  mem_states s := by
    rw [hrest.mem_states, mem_states_replaceState h hcan, List.mem_cons, not_or, and_assoc]
  sameWords s hs := by
    obtain ⟨hs', -⟩ := (hrest.mem_states s).mp hs
    have hne := ((mem_states_replaceState h hcan).mp hs').2
    exact (hrest.sameWords s hs).trans (sameWords_replaceState h hcan hsame hne)
  accepts word := (hrest.accepts word).trans (accepts_replaceState h hcan hsame)

/-- Merges between states that accept the same words collapse an automaton, if none of them makes use
of a state that is replaced by another. -/
theorem collapsed_foldl_replaceState (h : a.WellFormed) {pairs : List (State × State)}
    (hnodup : (pairs.map (·.1)).Nodup)
    (hpairs : ∀ p ∈ pairs, p.1 ∈ a.states ∧ p.2 ∈ a.states ∧ SameWords a p.1 a p.2)
    (hstays : ∀ p ∈ pairs, p.2 ∉ pairs.map (·.1)) :
    Collapsed a (pairs.foldl (fun b (old, new) => b.replaceState old new) a)
      (pairs.map (·.1)) := by
  induction pairs generalizing a with
  | nil => exact .refl h
  | cons p pairs ih =>
    obtain ⟨old, new⟩ := p
    rw [List.map_cons, List.nodup_cons] at hnodup
    obtain ⟨hold, hnew, hsame⟩ := hpairs (old, new) List.mem_cons_self
    have hne : ∀ p ∈ (old, new) :: pairs, p.2 ≠ old := fun p hp heq =>
      hstays p hp (heq ▸ List.mem_cons_self)
    have hcan : a.canReplace old new = true :=
      canReplace_iff.mpr ⟨(hne _ List.mem_cons_self).symm, hold, hnew⟩
    refine .replace h hcan hsame (ih (wellFormed_replaceState h) hnodup.2 (fun p hp => ?_) ?_)
    · obtain ⟨hp1, hp2, hpsame⟩ := hpairs p (List.mem_cons_of_mem _ hp)
      have hne1 : p.1 ≠ old := fun heq => hnodup.1 (List.mem_map.mpr ⟨p, hp, heq⟩)
      have hne2 : p.2 ≠ old := hne p (List.mem_cons_of_mem _ hp)
      refine ⟨(mem_states_replaceState h hcan).mpr ⟨hp1, hne1⟩,
        (mem_states_replaceState h hcan).mpr ⟨hp2, hne2⟩, ?_⟩
      exact (sameWords_replaceState h hcan hsame hne1).trans
        (hpsame.trans (sameWords_replaceState h hcan hsame hne2).symm)
    · intro p hp hmem
      exact hstays p (List.mem_cons_of_mem _ hp) (List.mem_cons_of_mem _ hmem)

/-! ## The merges of equivalent states -/

section Equivalent

variable {p : Partition}

theorem mem_equivalentStates :
    (s, t) ∈ a.equivalentStates p ↔ ∃ i < a.numStates,
      p.representative (p.blockOf i) ≠ i ∧ a.stateAt i = s ∧
        a.stateAt (p.representative (p.blockOf i)) = t := by
  simp only [equivalentStates, List.mem_filterMap, List.mem_range]
  refine exists_congr fun i => and_congr_right fun _ => ?_
  split
  · next heq => simp [heq]
  · next hne => simp [hne]

/-- The states to be replaced are those that do not represent their block. -/
theorem mem_map_equivalentStates (h : a.WellFormed) (hi : i < a.numStates) :
    a.stateAt i ∈ (a.equivalentStates p).map (·.1) ↔ p.representative (p.blockOf i) ≠ i := by
  constructor
  · intro hmem
    obtain ⟨⟨_, t⟩, hpair, rfl⟩ := List.mem_map.mp hmem
    obtain ⟨j, hj, hne, heq, -⟩ := mem_equivalentStates.mp hpair
    exact h.stateAt_injective hj hi heq ▸ hne
  · intro hne
    exact List.mem_map.mpr ⟨_, mem_equivalentStates.mpr ⟨i, hi, hne, rfl, rfl⟩, rfl⟩

theorem nodup_equivalentStates (h : a.WellFormed) :
    ((a.equivalentStates p).map (·.1)).Nodup := by
  rw [equivalentStates, List.map_filterMap]
  refine List.pairwise_filterMap.mpr (List.nodup_range.imp_of_mem ?_)
  intro i j hi hj hne s hs t ht heq
  have hplace : ∀ {k s}, ((if p.representative (p.blockOf k) = k then none
      else some (a.stateAt k, a.stateAt (p.representative (p.blockOf k)))).map (·.1)) = some s →
      a.stateAt k = s := by
    intro k s hk
    split at hk
    · cases hk
    · exact Option.some.inj hk
  refine hne (h.stateAt_injective (List.mem_range.mp hi) (List.mem_range.mp hj) ?_)
  rw [hplace hs, hplace ht, heq]

end Equivalent

/-- The equivalences of an automaton with a sink come from a partition by accepted words. -/
theorem exists_equivalences (h : a.WellFormed) (hdet : a.Deterministic)
    (hmem : sinkName ∈ a.states) (hsink : a.IsSink sinkName) :
    ∃ p : Partition, p.Valid a.numStates ∧ a.equivalences = a.equivalentStates p ∧
      ∀ i < a.numStates, ∀ j < a.numStates,
        (p.blockOf i = p.blockOf j ↔ SameWords a (a.stateAt i) a (a.stateAt j)) := by
  obtain ⟨k, hk, hlt, hname⟩ := exists_idxOf? hmem
  have hdead : ¬ a.Live (a.stateAt k) := hname ▸ hsink.not_live
  refine ⟨(a.table a.alphabet k hlt).equivalence, Table.valid_equivalence _, ?_, ?_⟩
  · simp only [equivalences, hk, Option.getD_some]
    exact dif_pos hlt
  · intro i hi j hj
    rw [Table.blockOf_equivalence_eq_iff hi hj, equivalent_table_iff h hdet hlt hdead hi hj]

/-- Merging equivalent states leaves one state for each set of accepted words. -/
theorem collapsed_equivalences (h : a.WellFormed) (hdet : a.Deterministic)
    (hmem : sinkName ∈ a.states) (hsink : a.IsSink sinkName) {b : Automaton}
    (hb : a.equivalences.foldl (fun b (old, new) => b.replaceState old new) a = b) :
    Collapsed a b (a.equivalences.map (·.1)) ∧
      ∀ s ∈ b.states, ∀ t ∈ b.states, SameWords b s b t → s = t := by
  obtain ⟨p, hp, heq, hblock⟩ := exists_equivalences h hdet hmem hsink
  have hcol : Collapsed a b (a.equivalences.map (·.1)) := by
    rw [← hb, heq]
    refine collapsed_foldl_replaceState h (nodup_equivalentStates h) (fun (s, t) hpair => ?_)
      (fun (s, t) hpair => ?_)
    · obtain ⟨i, hi, -, rfl, rfl⟩ := mem_equivalentStates.mp hpair
      obtain ⟨hlt, hrep⟩ := hp.representative_mem hi
      exact ⟨stateAt_mem hi, stateAt_mem hlt, (hblock i hi _ hlt).mp hrep.symm⟩
    · obtain ⟨i, hi, -, rfl, rfl⟩ := mem_equivalentStates.mp hpair
      obtain ⟨hlt, hrep⟩ := hp.representative_mem hi
      rw [mem_map_equivalentStates h hlt, hrep]
      exact not_not.mpr rfl
  refine ⟨hcol, fun s hs t ht hsame => ?_⟩
  have hrep : ∀ {s}, s ∈ b.states → ∃ i < a.numStates,
      a.stateAt i = s ∧ p.representative (p.blockOf i) = i := by
    intro s hs
    obtain ⟨hs, hgone⟩ := (hcol.mem_states s).mp hs
    obtain ⟨i, hi, rfl⟩ := exists_place hs
    rw [heq, mem_map_equivalentStates h hi, not_not] at hgone
    exact ⟨i, hi, rfl, hgone⟩
  obtain ⟨i, hi, hsi, hri⟩ := hrep hs
  obtain ⟨j, hj, htj, hrj⟩ := hrep ht
  have hsame' : SameWords a (a.stateAt i) a (a.stateAt j) := by
    rw [hsi, htj]
    exact (hcol.sameWords s hs).symm.trans (hsame.trans (hcol.sameWords t ht))
  rw [← hsi, ← htj, ← hri, ← hrj, (hblock i hi j hj).mpr hsame']

/-! ## The minimal automaton -/

/-- `b` accepts the same words as `a`, with one of the states of `a` for each set of words that is
accepted from any of them. -/
structure Reduced (a b : Automaton) : Prop where
  wellFormed : b.WellFormed
  deterministic : b.Deterministic
  accepts : ∀ word, b.Accepts word ↔ a.Accepts word
  sink_not_mem : sinkName ∉ b.states
  sameWords : ∀ s ∈ b.states, s ∈ a.states ∧ SameWords b s a s
  distinct : ∀ s ∈ b.states, ∀ t ∈ b.states, SameWords b s b t → s = t

theorem reduced_mergeEquivalent (h : a.WellFormed) (hdet : a.Deterministic)
    (hsink : sinkName ∉ a.states) : Reduced a a.mergeEquivalent := by
  rw [mergeEquivalent]
  split
  · next hnil =>
    rw [List.isEmpty_iff] at hnil
    have hempty : ∀ {s}, s ∉ a.states := by simp [hnil]
    exact ⟨h, hdet, fun _ => Iff.rfl, hsink, fun s hs => absurd hs hempty,
      fun s hs => absurd hs hempty⟩
  · have hsinkA : a.IsSink sinkName := h.isSink_of_not_mem hsink
    have hc : a.complete.WellFormed := wellFormed_completeOver h
    have hmem : ∀ {s}, s ∈ a.complete.states ↔ s ∈ a.states ∨ s = sinkName := mem_states_addState
    show Reduced a ((a.complete.equivalences.foldl (fun b (old, new) => b.replaceState old new)
      a.complete).removeState sinkName)
    generalize hr : a.complete.equivalences.foldl (fun b (old, new) => b.replaceState old new)
      a.complete = r
    obtain ⟨hcol, hdistinct⟩ := collapsed_equivalences hc (deterministic_completeOver h hdet)
      (hmem.mpr (Or.inr rfl)) (isSink_completeOver h hsinkA) hr
    have hwords : ∀ {s}, s ∈ r.states → SameWords r s a s := fun {s} hs =>
      (hcol.sameWords s hs).trans (sameWords_completeOver h hsinkA)
    have hdead : ¬ r.Live sinkName := fun hlive =>
      hsinkA.not_live ((hwords (hcol.wellFormed.mem_of_live hlive)).live hlive)
    have hstates : ∀ {s}, s ∈ (r.removeState sinkName).states ↔ s ∈ r.states ∧ s ≠ sinkName :=
      mem_states_removeState hcol.wellFormed
    have hremove : ∀ {s}, s ∈ (r.removeState sinkName).states →
        SameWords (r.removeState sinkName) s r s := fun {s} hs =>
      sameWords_removeState hcol.wellFormed hdead (hstates.mp hs).2
    refine
      { wellFormed := wellFormed_removeState hcol.wellFormed
        deterministic := deterministic_removeState hcol.wellFormed
          (hcol.deterministic (deterministic_completeOver h hdet))
        accepts := fun word => (accepts_removeState hcol.wellFormed hdead).trans
          ((hcol.accepts word).trans (accepts_completeOver h hsinkA))
        sink_not_mem := fun hs => (hstates.mp hs).2 rfl
        sameWords := fun s hs => ?_
        distinct := fun s hs t ht hsame => ?_ }
    · obtain ⟨hs', hne⟩ := hstates.mp hs
      have hsc := hmem.mp ((hcol.mem_states s).mp hs').1
      exact ⟨hsc.resolve_right hne, (hremove hs).trans (hwords hs')⟩
    · exact hdistinct s (hstates.mp hs).1 t (hstates.mp ht).1
        ((hremove hs).symm.trans (hsame.trans (hremove ht)))

namespace Reduced

variable {b : Automaton} (h : Reduced a b)

include h

/-- Being the only state with its words, a state is reached by the word that led to it before. -/
theorem useful (hdet : a.Deterministic)
    (huseful : ∀ s ∈ a.states, a.Reachable s ∧ a.Live s) {s : State} (hs : s ∈ b.states) :
    b.Reachable s ∧ b.Live s := by
  obtain ⟨hmem, hsame⟩ := h.sameWords s hs
  obtain ⟨⟨i, word, hi, hpath⟩, hlive⟩ := huseful s hmem
  refine ⟨?_, hsame.symm.live hlive⟩
  obtain ⟨i', hi', hinitial⟩ := exists_initial_sameWords (fun word => (h.accepts word).symm) hi
    (hlive.of_path hpath)
  obtain ⟨t, hpath', hsame'⟩ := hdet.exists_like h.deterministic hinitial hpath hlive
  have ht : t ∈ b.states := h.wellFormed.mem_of_path (h.wellFormed.initial_mem hi') hpath'
  rw [h.distinct s hs t ht (hsame.trans hsame')]
  exact ⟨i', word, hi', hpath'⟩

end Reduced

theorem reduced_minimize (h : a.WellFormed) : Reduced a.determinize a.minimize :=
  reduced_mergeEquivalent (wellFormed_determinize h) (deterministic_determinize h)
    (sinkName_not_mem_determinize h)

theorem accepts_minimize (h : a.WellFormed) {word : List Char} :
    a.minimize.Accepts word ↔ a.Accepts word :=
  ((reduced_minimize h).accepts word).trans (accepts_determinize h)

theorem useful_minimize (h : a.WellFormed) (hs : s ∈ a.minimize.states) :
    a.minimize.Reachable s ∧ a.minimize.Live s :=
  (reduced_minimize h).useful (deterministic_determinize h) (fun _ => useful_determinize h) hs

/-- An automaton without useless states has states exactly if it accepts something. -/
theorem states_eq_nil_iff (h : a.WellFormed)
    (huseful : ∀ s ∈ a.states, a.Reachable s ∧ a.Live s) :
    a.states = [] ↔ ∀ word, a.acceptsWord word = false := by
  constructor
  · intro hnil word
    rw [← Bool.not_eq_true, acceptsWord_iff, accepts_iff]
    intro ⟨i, hi, _⟩
    have := h.initial_mem hi
    rw [hnil] at this
    cases this
  · intro hnone
    refine List.eq_nil_iff_forall_not_mem.mpr fun s hs => ?_
    obtain ⟨⟨i, word, hi, hpath⟩, rest, hrest⟩ := huseful s hs
    have hacc := acceptsWord_iff.mpr (accepts_iff.mpr ⟨i, hi, AcceptsFrom.of_path hpath hrest⟩)
    rw [hnone] at hacc
    cases hacc

/-- **Minimization.** Of a well-formed automaton it makes a well-formed deterministic one that accepts
the same words, has no sink, and all states of which are reachable and live; it has no states at all
exactly if no word is accepted. -/
theorem minimize_spec (h : a.WellFormed) :
    a.minimize.WellFormed ∧ a.minimize.isDeterministic = true ∧
      (∀ word, a.minimize.acceptsWord word = a.acceptsWord word) ∧
      sinkName ∉ a.minimize.states ∧
      (∀ s ∈ a.minimize.states, a.minimize.Reachable s ∧ a.minimize.Live s) ∧
      (a.minimize.states = [] ↔ ∀ word, a.acceptsWord word = false) := by
  have hwords : ∀ word, a.minimize.acceptsWord word = a.acceptsWord word := fun _ =>
    acceptsWord_eq_of_iff (accepts_minimize h)
  have hempty := states_eq_nil_iff (reduced_minimize h).wellFormed fun _ => useful_minimize h
  simp only [hwords] at hempty
  exact ⟨(reduced_minimize h).wellFormed,
    isDeterministic_iff.mpr (reduced_minimize h).deterministic, hwords,
    (reduced_minimize h).sink_not_mem, fun _ hs => useful_minimize h hs, hempty⟩

/-- The minimal automaton does not take over a state that is named like the sink. -/
def sinkNamed : Automaton :=
  (((empty.addStates [sinkName, "A", "B"]).addTransition sinkName 'x' "A").addTransition
    sinkName 'x' "B" |>.accept "A").accept "B"

theorem wellFormed_sinkNamed : sinkNamed.WellFormed :=
  wellFormed_accept (wellFormed_accept (wellFormed_addTransition (wellFormed_addTransition
    (wellFormed_addStates wellFormed_empty _))))

theorem minimize_spec_sinkNamed :
    sinkNamed.WellFormed ∧ sinkNamed.isDeterministic = false ∧ sinkName ∈ sinkNamed.states ∧
      sinkNamed.minimize.WellFormed ∧ sinkNamed.minimize.isDeterministic = true ∧
      (∀ word, sinkNamed.minimize.acceptsWord word = sinkNamed.acceptsWord word) ∧
      sinkName ∉ sinkNamed.minimize.states ∧
      (∀ s ∈ sinkNamed.minimize.states,
        sinkNamed.minimize.Reachable s ∧ sinkNamed.minimize.Live s) ∧
      (sinkNamed.minimize.states = [] ↔ ∀ word, sinkNamed.acceptsWord word = false) :=
  ⟨wellFormed_sinkNamed, by decide, by decide, minimize_spec wellFormed_sinkNamed⟩

end RegularSets.Automaton
