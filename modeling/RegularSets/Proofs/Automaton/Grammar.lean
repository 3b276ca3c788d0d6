import RegularSets.Proofs.Automaton.Rename
import RegularSets.Proofs.Grammar.Automaton

/-!
# The grammar of an automaton generates what the automaton accepts

The automaton is prepared first: what is useless goes, and the states get canonical names unless all
names are legal already. That keeps the accepted words, and leaves an initial state exactly if there
is such a word (`Automaton.initial_prepared_eq_none_iff`), which is when there is a grammar.

The grammar has one rule for each state that is left, with one alternative for each transition and the
empty word for accepting states (`Automaton.has_step_iff`, `Automaton.has_emptyWord_iff`). Since no
alternative is a single terminal, what a non-terminal generates is what is accepted from the state, by
induction on the word (`Automaton.generates_grammarFrom`).
-/

namespace RegularSets.Automaton

variable {a b : Automaton} {g : Grammar} {i n s t : State} {c : Char} {word : List Char}
  {alternative : Alternative}

/-! ## Preparation -/

/-- The useful states are left, under their own names if all of these are legal or under new ones. -/
theorem prepared_cases (a : Automaton) :
    (a.prepared = a.removeUseless ∧ ∀ s ∈ a.removeUseless.states, isNonTerminal s.toList = true) ∨
      a.prepared = a.removeUseless.rename .canonical := by
  rw [prepared]
  split
  · next hlegal => exact Or.inl ⟨rfl, List.all_eq_true.mp hlegal⟩
  · exact Or.inr rfl

section Prepared

variable (h : a.WellFormed)

include h

theorem exists_isomorphism_prepared : Nonempty (Isomorphism a.removeUseless a.prepared) := by
  rcases prepared_cases a with ⟨heq, -⟩ | heq
  · exact heq ▸ ⟨.refl _⟩
  · exact heq ▸ ⟨.rename (wellFormed_removeUseless h) .canonical⟩

theorem wellFormed_prepared : a.prepared.WellFormed := by
  rcases prepared_cases a with ⟨heq, -⟩ | heq
  · exact heq ▸ wellFormed_removeUseless h
  · exact heq ▸ wellFormed_rename (wellFormed_removeUseless h)

theorem isNonTerminal_of_mem_prepared (hs : s ∈ a.prepared.states) :
    isNonTerminal s.toList = true := by
  rcases prepared_cases a with ⟨heq, hlegal⟩ | heq
  · exact hlegal s (heq ▸ hs)
  · obtain ⟨n, rfl⟩ := exists_name_of_mem_rename (wellFormed_removeUseless h) (heq ▸ hs)
    exact Naming.isNonTerminal_name n

theorem accepts_prepared : a.prepared.Accepts word ↔ a.Accepts word := by
  obtain ⟨iso⟩ := exists_isomorphism_prepared h
  exact (iso.accepts_iff (wellFormed_removeUseless h)).trans (accepts_removeUseless h)

theorem useful_prepared (hs : s ∈ a.prepared.states) :
    a.prepared.Reachable s ∧ a.prepared.Live s := by
  obtain ⟨iso⟩ := exists_isomorphism_prepared h
  obtain ⟨t, ht, rfl⟩ := iso.surjective hs
  obtain ⟨hreachable, hlive⟩ := useful_removeUseless h ht
  have hw := wellFormed_removeUseless h
  exact ⟨iso.reachable_map hw hreachable, (iso.live_iff hw ht).mpr hlive⟩

/-- An initial state that is left is live, so some word is accepted. -/
theorem exists_accepts_of_initial_prepared (hi : a.prepared.initial = some i) :
    ∃ word, a.Accepts word := by
  obtain ⟨-, word, hacc⟩ := useful_prepared h ((wellFormed_prepared h).initial_mem hi)
  exact ⟨word, (accepts_prepared h).mp (accepts_iff.mpr ⟨i, hi, hacc⟩)⟩

theorem initial_prepared_eq_none_iff : a.prepared.initial = none ↔ ∀ word, ¬ a.Accepts word := by
  constructor
  · intro hnone word hacc
    obtain ⟨i, hi, -⟩ := accepts_iff.mp ((accepts_prepared h).mpr hacc)
    rw [hnone] at hi
    cases hi
  · intro hall
    rw [Option.eq_none_iff_forall_ne_some]
    intro i hi
    obtain ⟨word, hacc⟩ := exists_accepts_of_initial_prepared h hi
    exact hall word hacc

end Prepared

/-! ## The rules -/

/-- The grammar with a rule for each state, that of `i` first. -/
def grammarFrom (b : Automaton) (i : State) : Grammar where
  rules := (i :: b.states.filter (· ≠ i)).map fun s =>
    { head := s, alternatives := b.alternativesOf s }
  initial := i

theorem step_mem_alternativesOf : .step c t ∈ b.alternativesOf s ↔ t ∈ b.targets s c := by
  rw [alternativesOf, List.mem_append, List.mem_map, ← mem_successors]
  split <;> simp

theorem emptyWord_mem_alternativesOf : .emptyWord ∈ b.alternativesOf s ↔ s ∈ b.accepting := by
  rw [alternativesOf, List.mem_append, List.mem_map]
  simp [isAccepting]

theorem terminal_not_mem_alternativesOf : .terminal c ∉ b.alternativesOf s := by
  rw [alternativesOf, List.mem_append, List.mem_map]
  split <;> simp

theorem nodup_alternativesOf (hb : b.WellFormed) : (b.alternativesOf s).Nodup := by
  have hsteps : ((b.successors s).map fun e => Alternative.step e.1 e.2).Nodup := by
    refine (hb.row_fits s).nodup_pairs.map fun e e' heq => ?_
    obtain ⟨hc, ht⟩ := Alternative.step.inj heq
    exact Prod.ext hc ht
  rw [alternativesOf, List.nodup_append]
  refine ⟨hsteps, by split <;> simp, fun x hx y hy heq => ?_⟩
  obtain ⟨e, -, rfl⟩ := List.mem_map.mp hx
  split at hy
  · cases List.mem_singleton.mp hy
    cases heq
  · cases hy

section GrammarFrom

theorem nonTerminals_grammarFrom :
    (b.grammarFrom i).nonTerminals = i :: b.states.filter (· ≠ i) := by
  rw [Grammar.nonTerminals, grammarFrom, List.map_map]
  exact List.map_id _

theorem nodup_nonTerminals_grammarFrom (hb : b.WellFormed) :
    (b.grammarFrom i).nonTerminals.Nodup := by
  rw [nonTerminals_grammarFrom, List.nodup_cons]
  exact ⟨by simp, hb.nodup_states.filter _⟩

variable (hb : b.WellFormed) (hi : i ∈ b.states)

include hi

theorem mem_nonTerminals_grammarFrom : n ∈ (b.grammarFrom i).nonTerminals ↔ n ∈ b.states := by
  rw [nonTerminals_grammarFrom, List.mem_cons, List.mem_filter, decide_eq_true_eq]
  by_cases hn : n = i
  · simp [hn, hi]
  · simp [hn]

theorem has_grammarFrom : (b.grammarFrom i).Has n alternative ↔
    n ∈ b.states ∧ alternative ∈ b.alternativesOf n := by
  rw [← mem_nonTerminals_grammarFrom hi, nonTerminals_grammarFrom, Grammar.Has, grammarFrom]
  simp only [List.mem_map, exists_exists_and_eq_and]
  constructor
  · rintro ⟨s, hs, rfl, halternative⟩
    exact ⟨hs, halternative⟩
  · rintro ⟨hn, halternative⟩
    exact ⟨n, hn, rfl, halternative⟩

theorem not_has_terminal : ¬ (b.grammarFrom i).Has n (.terminal c) := fun h =>
  terminal_not_mem_alternativesOf ((has_grammarFrom hi).mp h).2

include hb

theorem has_step_iff : (b.grammarFrom i).Has n (.step c t) ↔ t ∈ b.targets n c := by
  rw [has_grammarFrom hi, step_mem_alternativesOf]
  exact and_iff_right_of_imp hb.mem_of_source

theorem has_emptyWord_iff : (b.grammarFrom i).Has n .emptyWord ↔ n ∈ b.accepting := by
  rw [has_grammarFrom hi, emptyWord_mem_alternativesOf]
  exact and_iff_right_of_imp hb.accepting_mem

theorem generates_grammarFrom : (b.grammarFrom i).Generates s word ↔ b.AcceptsFrom s word := by
  induction word generalizing s with
  | nil => rw [Grammar.generates_nil_iff, has_emptyWord_iff hb hi, acceptsFrom_nil]
  | cons c word ih =>
    rw [Grammar.generates_cons_iff, or_iff_right fun h => not_has_terminal hi h.2,
      acceptsFrom_cons]
    simp only [has_step_iff hb hi, ih]

theorem undefined_grammarFrom : (b.grammarFrom i).undefined = [] := by
  refine Grammar.undefined_eq_nil_iff.mpr fun n c t ht => ?_
  exact (mem_nonTerminals_grammarFrom hi).mpr (hb.mem_of_target ((has_step_iff hb hi).mp ht))

end GrammarFrom

/-! ## The grammar -/

section ToGrammar

variable (h : a.WellFormed)

include h

theorem toGrammar_of_initial (hi : a.prepared.initial = some i) :
    a.toGrammar = .ok (a.prepared.grammarFrom i) := by
  obtain ⟨-, -, t, -, ht⟩ := useful_prepared h ((wellFormed_prepared h).initial_mem hi)
  have hne : a.prepared.accepting.isEmpty = false := by
    rw [← Bool.not_eq_true, List.isEmpty_iff]
    exact List.ne_nil_of_mem ht
  rw [toGrammar]
  simp only [hi, hne]
  rfl

omit h in
theorem toGrammar_of_initial_eq_none (hnone : a.prepared.initial = none) :
    a.toGrammar = .error .emptyLanguage := by
  rw [toGrammar]
  simp only [hnone]

theorem exists_of_toGrammar (hg : a.toGrammar = .ok g) :
    ∃ i, a.prepared.initial = some i ∧ g = a.prepared.grammarFrom i := by
  cases hi : a.prepared.initial with
  | none =>
    rw [toGrammar_of_initial_eq_none hi] at hg
    cases hg
  | some i =>
    rw [toGrammar_of_initial h hi] at hg
    cases hg
    exact ⟨i, rfl, rfl⟩

theorem generates_toGrammar (hg : a.toGrammar = .ok g) :
    g.Generates g.initial word ↔ a.Accepts word := by
  obtain ⟨i, hi, rfl⟩ := exists_of_toGrammar h hg
  have hw := wellFormed_prepared h
  rw [← accepts_prepared h, accepts_iff, generates_grammarFrom hw (hw.initial_mem hi), hi]
  simp only [Option.some.injEq, exists_eq_left']
  rfl

/-- An automaton that accepts some word has a grammar. -/
theorem exists_toGrammar (hacc : a.Accepts word) : ∃ g, a.toGrammar = .ok g := by
  cases hi : a.prepared.initial with
  | none => exact absurd hacc ((initial_prepared_eq_none_iff h).mp hi word)
  | some i => exact ⟨_, toGrammar_of_initial h hi⟩

theorem undefined_of_toGrammar (hg : a.toGrammar = .ok g) : g.undefined = [] := by
  obtain ⟨i, hi, rfl⟩ := exists_of_toGrammar h hg
  have hw := wellFormed_prepared h
  exact undefined_grammarFrom hw (hw.initial_mem hi)

/-- The automaton of the grammar accepts the same words again. -/
theorem acceptsWord_of_toGrammar (hg : a.toGrammar = .ok g) :
    g.toAutomaton.acceptsWord word = a.acceptsWord word := by
  have hundefined := undefined_of_toGrammar h hg
  refine acceptsWord_eq_of_iff ?_
  rw [← generates_toGrammar h hg, accepts_iff]
  simp only [Grammar.initial_toAutomaton hundefined, Option.some.injEq, exists_eq_left']
  exact Grammar.acceptsFrom_toAutomaton hundefined List.mem_cons_self

/-- **Grammar of an automaton.** There is none exactly if no word is accepted. Otherwise its heads are
distinct legal non-terminals, the initial symbol first, it uses no other non-terminals, and the initial
symbol generates the accepted words. -/
theorem toGrammar_spec :
    (a.toGrammar = .error .emptyLanguage ↔ ∀ word, a.acceptsWord word = false) ∧
      ((∃ word, a.acceptsWord word = true) → ∃ g, a.toGrammar = .ok g ∧ g.nonTerminals.Nodup ∧
        (∀ n ∈ g.nonTerminals, isNonTerminal n.toList = true) ∧
        g.nonTerminals.head? = some g.initial ∧
        (∀ n c t, g.Has n (.step c t) → t ∈ g.nonTerminals) ∧
        ∀ word, g.Generates g.initial word ↔ a.acceptsWord word = true) := by
  have hw := wellFormed_prepared h
  simp only [← Bool.not_eq_true, acceptsWord_iff, ← initial_prepared_eq_none_iff h]
  cases hi : a.prepared.initial with
  | none =>
    refine ⟨iff_of_true (toGrammar_of_initial_eq_none hi) rfl, fun ⟨word, hacc⟩ => ?_⟩
    exact absurd hacc ((initial_prepared_eq_none_iff h).mp hi word)
  | some i =>
    have hmem := hw.initial_mem hi
    have hok := toGrammar_of_initial h hi
    refine ⟨iff_of_false (by rw [hok]; exact nofun) nofun, fun _ => ?_⟩
    refine ⟨_, hok, nodup_nonTerminals_grammarFrom hw, fun n hn => ?_, ?_, fun n c t ht => ?_,
      fun word => generates_toGrammar h hok⟩
    · exact isNonTerminal_of_mem_prepared h ((mem_nonTerminals_grammarFrom hmem).mp hn)
    · rw [nonTerminals_grammarFrom]
      rfl
    · exact Grammar.mem_nonTerminals_of_step (undefined_of_toGrammar h hok) ht

end ToGrammar

/-- Two targets on a symbol, a dead state, and old names that are new names of other states. -/
def oddlyNamed : Automaton :=
  empty.changeAll [.addStates ["B", "q 0", "A", "none"], .addTransition "B" 'x' "q 0",
    .addTransition "B" 'x' "B", .addTransition "q 0" 'y' "A", .addTransition "A" '-' "none",
    .accept "A"]

theorem wellFormed_oddlyNamed : oddlyNamed.WellFormed :=
  wellFormed_changeAll wellFormed_empty _

theorem toGrammar_spec_oddlyNamed :
    oddlyNamed.WellFormed ∧ oddlyNamed.isDeterministic = false ∧
      oddlyNamed.acceptsWord ['x', 'y'] = true ∧
      ∃ g, oddlyNamed.toGrammar = .ok g ∧ g.nonTerminals.Nodup ∧
        (∀ n ∈ g.nonTerminals, isNonTerminal n.toList = true) ∧
        g.nonTerminals.head? = some g.initial ∧
        (∀ n c t, g.Has n (.step c t) → t ∈ g.nonTerminals) ∧
        ∀ word, g.Generates g.initial word ↔ oddlyNamed.acceptsWord word = true := by
  have haccepts : oddlyNamed.acceptsWord ['x', 'y'] = true := by decide
  exact ⟨wellFormed_oddlyNamed, by decide, haccepts,
    (toGrammar_spec wellFormed_oddlyNamed).2 ⟨_, haccepts⟩⟩

end RegularSets.Automaton
