import RegularSets.Proofs.Automaton.Grammar
import RegularSets.Proofs.Automaton.Useless

/-!
# The grammar of an automaton is fixed

The automaton of a grammar that was made from an automaton has the same states, with the initial one in
front, the same roles and the same targets in the same order: no alternative is a single terminal, so no
state is added to the heads, and the targets of a head on a symbol are added in the order in which they
were listed. So it is an isomorphic copy under the same names (`Isomorphism.ofGrammarFrom`). All states of
the copy are useful and have legal names already; hence there is nothing to prepare, and its grammar is
the one it came from (`exists_toGrammar_fixed`).
-/

namespace RegularSets.Automaton

variable {a b d : Automaton} {i s t : State} {c : Char} {g : Grammar}

/-! ## The automaton of the grammar -/

theorem filterMap_alternativesOf (final : State) :
    (b.alternativesOf s).filterMap (Rule.leadsTo? final c) = b.targets s c := by
  have hend : (if b.isAccepting s then [Alternative.emptyWord] else []).filterMap
      (Rule.leadsTo? final c) = [] := by
    split <;> rfl
  rw [alternativesOf, List.filterMap_append, hend, List.append_nil, List.filterMap_map]
  exact Row.filterMap_pairs

section GrammarFrom

variable (hb : b.WellFormed) (hi : i ∈ b.states)

include hb hi

theorem states_toAutomaton_grammarFrom :
    (b.grammarFrom i).toAutomaton.states = i :: b.states.filter (· ≠ i) := by
  have hnodup := nodup_nonTerminals_grammarFrom hb (i := i)
  rw [nonTerminals_grammarFrom, ← List.singleton_append] at hnodup
  rw [Grammar.states_toAutomaton (undefined_grammarFrom hb hi) fun n c => not_has_terminal hi,
    nonTerminals_grammarFrom, List.foldl_cons]
  have hinitial : appendNew [(b.grammarFrom i).initial] i = [i] :=
    appendNew_of_mem (List.mem_singleton_self i)
  rw [hinitial, foldl_appendNew_of_nodup hnodup, List.singleton_append]

theorem mem_states_toAutomaton_grammarFrom :
    s ∈ (b.grammarFrom i).toAutomaton.states ↔ s ∈ b.states := by
  rw [states_toAutomaton_grammarFrom hb hi, ← nonTerminals_grammarFrom,
    mem_nonTerminals_grammarFrom hi]

theorem targets_toAutomaton_grammarFrom (s : State) (c : Char) :
    (b.grammarFrom i).toAutomaton.targets s c = b.targets s c := by
  have hheads := (b.grammarFrom i).map_head_finals
  rw [Grammar.targets_toAutomaton (undefined_grammarFrom hb hi)]
  by_cases hs : s ∈ b.states
  · -- one rule has this head, and it lists the targets in order
    have hrule : { head := s, alternatives := b.alternativesOf s } ∈ (b.grammarFrom i).rules := by
      refine List.mem_map_of_mem (f := fun s => Rule.mk s (b.alternativesOf s)) ?_
      rwa [← nonTerminals_grammarFrom, mem_nonTerminals_grammarFrom hi]
    obtain ⟨⟨_, final⟩, hp, rfl⟩ : ∃ p ∈ (b.grammarFrom i).finals,
        p.1 = { head := s, alternatives := b.alternativesOf s } :=
      List.mem_map.mp (Rule.map_fst_withFinals ▸ hrule)
    have hone := flatMap_ite_of_mem (fun p : Rule × State => p.1.head)
      (hheads ▸ nodup_nonTerminals_grammarFrom hb) hp
      fun p => p.1.alternatives.filterMap (Rule.leadsTo? p.2 c)
    have hnodup : ([] ++ b.targets s c).Nodup := (hb.row_fits s).nodup_targets
    refine (congrArg (List.foldl appendNew []) (hone.trans ?_)).trans
      (foldl_appendNew_of_nodup hnodup)
    exact filterMap_alternativesOf final
  · rw [flatMap_ite_of_not_mem fun p : Rule × State => p.1.head]
    · rw [hb.targets_of_not_mem hs]
      rfl
    · rwa [hheads, mem_nonTerminals_grammarFrom hi]

theorem mem_accepting_toAutomaton_grammarFrom :
    s ∈ (b.grammarFrom i).toAutomaton.accepting ↔ s ∈ b.accepting := by
  rw [Grammar.mem_accepting_toAutomaton (undefined_grammarFrom hb hi), has_emptyWord_iff hb hi]
  refine or_iff_left ?_
  rintro ⟨n, c, hfinal⟩
  exact not_has_terminal hi (Grammar.exists_isFinal_iff.mp ⟨s, hfinal⟩)

omit hi in
/-- The copy has the same names; only the order of its states may differ. -/
def Isomorphism.ofGrammarFrom (hinitial : b.initial = some i) :
    Isomorphism b (b.grammarFrom i).toAutomaton where
  map := id
  injective _ _ heq := heq
  surjective ht :=
    ⟨_, (mem_states_toAutomaton_grammarFrom hb (hb.initial_mem hinitial)).mp ht, rfl⟩
  map_mem := (mem_states_toAutomaton_grammarFrom hb (hb.initial_mem hinitial)).mpr
  map_initial := by
    rw [Grammar.initial_toAutomaton (undefined_grammarFrom hb (hb.initial_mem hinitial)), hinitial]
    rfl
  accepting_iff _ := mem_accepting_toAutomaton_grammarFrom hb (hb.initial_mem hinitial)
  map_targets _ := by
    rw [List.map_id]
    exact targets_toAutomaton_grammarFrom hb (hb.initial_mem hinitial) _ _

/-! ## Its grammar -/

theorem alternativesOf_toAutomaton_grammarFrom (s : State) :
    (b.grammarFrom i).toAutomaton.alternativesOf s = b.alternativesOf s := by
  have hw : (b.grammarFrom i).toAutomaton.WellFormed := wellFormed_changeAll wellFormed_empty _
  have hrow : (b.grammarFrom i).toAutomaton.row s = b.row s :=
    (hw.row_fits s).ext (hb.row_fits s) fun c => targets_toAutomaton_grammarFrom hb hi s c
  have haccepting : (b.grammarFrom i).toAutomaton.isAccepting s = b.isAccepting s :=
    decide_eq_decide.mpr (mem_accepting_toAutomaton_grammarFrom hb hi)
  rw [alternativesOf, successors, hrow, haccepting]
  rfl

theorem grammarFrom_toAutomaton_grammarFrom :
    (b.grammarFrom i).toAutomaton.grammarFrom i = b.grammarFrom i := by
  have hheads : i :: (b.grammarFrom i).toAutomaton.states.filter (· ≠ i) =
      i :: b.states.filter (· ≠ i) := by
    rw [states_toAutomaton_grammarFrom hb hi, List.filter_cons_of_neg (by simp), List.filter_filter]
    simp
  have hrule : (fun s => Rule.mk s ((b.grammarFrom i).toAutomaton.alternativesOf s)) =
      fun s => Rule.mk s (b.alternativesOf s) :=
    funext fun s => congrArg (Rule.mk s) (alternativesOf_toAutomaton_grammarFrom hb hi s)
  rw [grammarFrom, hheads, hrule]
  rfl

end GrammarFrom

/-- Useful states under legal names need no preparation. -/
theorem prepared_eq_self (h : a.WellFormed) (huseful : ∀ s ∈ a.states, a.Reachable s ∧ a.Live s)
    (hlegal : ∀ s ∈ a.states, isNonTerminal s.toList = true) : a.prepared = a := by
  have hprepared : a.removeUseless = a := removeUseless_eq_self h huseful
  rw [prepared, hprepared]
  exact if_pos (List.all_eq_true.mpr hlegal)

/-- **Fixed point.** An automaton that accepts some word has a grammar, and the grammar of the automaton
of this grammar is the same one, with its rules and their alternatives in the same order. -/
theorem exists_toGrammar_fixed (h : a.WellFormed) (hacc : ∃ word, a.acceptsWord word = true) :
    ∃ g, a.toGrammar = .ok g ∧ g.toAutomaton.toGrammar = .ok g := by
  obtain ⟨word, hword⟩ := hacc
  obtain ⟨g, hg⟩ := exists_toGrammar h (acceptsWord_iff.mp hword)
  obtain ⟨i, hi, rfl⟩ := exists_of_toGrammar h hg
  have hb := wellFormed_prepared h
  have hmem := hb.initial_mem hi
  have hw : (a.prepared.grammarFrom i).toAutomaton.WellFormed :=
    wellFormed_changeAll wellFormed_empty _
  let iso := Isomorphism.ofGrammarFrom hb hi
  have hprepared : (a.prepared.grammarFrom i).toAutomaton.prepared =
      (a.prepared.grammarFrom i).toAutomaton := by
    refine prepared_eq_self hw (fun s hs => ?_) fun s hs => ?_
    · obtain ⟨t, ht, rfl⟩ := iso.surjective hs
      obtain ⟨hreachable, hlive⟩ := useful_prepared h ht
      exact ⟨iso.reachable_map hb hreachable, (iso.live_iff hb ht).mpr hlive⟩
    · exact isNonTerminal_of_mem_prepared h ((mem_states_toAutomaton_grammarFrom hb hmem).mp hs)
  have hinitial : (a.prepared.grammarFrom i).toAutomaton.prepared.initial = some i := by
    rw [hprepared]
    exact Grammar.initial_toAutomaton (undefined_grammarFrom hb hmem)
  refine ⟨_, hg, ?_⟩
  rw [toGrammar_of_initial hw hinitial, hprepared, grammarFrom_toAutomaton_grammarFrom hb hmem]

/-- The initial state is not the first one, and targets on a symbol are not in the order of the states. One
state is dead, so that all names are legal in the end. -/
def backwards : Automaton :=
  empty.changeAll [.addStates ["C", "B'", "A", "no name"], .setInitial "A", .addTransition "A" 'x' "A",
    .addTransition "A" 'x' "B'", .addTransition "A" 'x' "C", .addTransition "A" '-' "B'",
    .addTransition "B'" 'y' "C", .addTransition "C" 'y' "no name", .accept "C", .accept "A"]

theorem wellFormed_backwards : backwards.WellFormed :=
  wellFormed_changeAll wellFormed_empty _

/-- The grammar of `backwards`. -/
def forwards : Grammar where
  rules :=
    [⟨"A", [.step '-' "B'", .step 'x' "A", .step 'x' "B'", .step 'x' "C", .emptyWord]⟩,
      ⟨"C", [.emptyWord]⟩, ⟨"B'", [.step 'y' "C"]⟩]
  initial := "A"

theorem exists_toGrammar_fixed_backwards :
    backwards.WellFormed ∧ backwards.acceptsWord ['x', '-', 'y'] = true ∧
      backwards.isDeterministic = false ∧ backwards.toGrammar = .ok forwards ∧
      ∃ g, backwards.toGrammar = .ok g ∧ g.toAutomaton.toGrammar = .ok g := by
  have hacc : backwards.acceptsWord ['x', '-', 'y'] = true := by decide
  exact ⟨wellFormed_backwards, hacc, by decide, by decide +kernel,
    exists_toGrammar_fixed wellFormed_backwards ⟨_, hacc⟩⟩

end RegularSets.Automaton
