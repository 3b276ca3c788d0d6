import RegularSets.Grammar.Automaton
import RegularSets.Grammar.Reader
import RegularSets.Proofs.Automaton.Additions
import RegularSets.Proofs.Naming

/-!
# The automaton of a grammar accepts what the grammar generates

The automaton of a grammar is made by a history that only adds, so its transitions and accepting states
can be read off the rules (`Grammar.mem_targets_toAutomaton`, `Grammar.mem_accepting_toAutomaton`). The
single terminals of a rule lead to its final state, whose name is lengthened until it is that of no
non-terminal and of no final state before it (`Rule.final_not_mem`); it accepts and leads nowhere, so only
the empty word is accepted from it. From a non-terminal exactly the words that it generates are accepted, by
induction on the word (`Grammar.acceptsFrom_toAutomaton`).

A name that is used without a rule could be that of a final state. A grammar that was read has no such
name (`Grammar.undefined_of_read`), so its automaton accepts what its initial symbol generates, however
the non-terminals are called (`Grammar.acceptsWord_toAutomaton_iff_generates`).
-/

namespace RegularSets

open Automaton (Adds Added Appended addedState? addedTarget?)

namespace Rule

variable {used known : List State} {head final s t : State} {made : Bool} {c : Char}
  {alternatives : List Alternative} {rules : List Rule} {p : Rule × State}

/-! ## The changes of one rule -/

theorem accept_mem_alternativeChanges :
    Change.accept s ∈ alternativeChanges head final made alternatives ↔
      s = head ∧ .emptyWord ∈ alternatives ∨
        s = final ∧ made = false ∧ ∃ c, .terminal c ∈ alternatives := by
  induction alternatives generalizing made with
  | nil => simp [alternativeChanges]
  | cons alternative alternatives ih =>
    cases alternative with
    | emptyWord =>
      simp only [alternativeChanges, List.mem_cons, ih]
      grind
    | terminal c =>
      simp only [alternativeChanges, List.mem_append, List.mem_cons, ih]
      grind
    | step c name => simp [alternativeChanges, ih]

theorem addTransition_mem_alternativeChanges :
    Change.addTransition s c t ∈ alternativeChanges head final made alternatives ↔
      s = head ∧ (.step c t ∈ alternatives ∨ t = final ∧ .terminal c ∈ alternatives) := by
  induction alternatives generalizing made with
  | nil => simp [alternativeChanges]
  | cons alternative alternatives ih =>
    cases alternative with
    | emptyWord => simp [alternativeChanges, ih]
    | terminal d =>
      simp only [alternativeChanges, List.mem_append, List.mem_cons, ih]
      grind
    | step d name =>
      simp only [alternativeChanges, List.mem_cons, ih]
      grind

theorem addState_mem_alternativeChanges :
    Change.addState s ∈ alternativeChanges head final made alternatives ↔
      s = final ∧ made = false ∧ ∃ c, .terminal c ∈ alternatives := by
  induction alternatives generalizing made with
  | nil => simp [alternativeChanges]
  | cons alternative alternatives ih =>
    cases alternative with
    | emptyWord => simp [alternativeChanges, ih]
    | terminal c =>
      simp only [alternativeChanges, List.mem_append, List.mem_cons, ih]
      grind
    | step c name => simp [alternativeChanges, ih]

/-- The state that an alternative leads to on a symbol. -/
def leadsTo? (final : State) (c : Char) : Alternative → Option State
  | .emptyWord => none
  | .terminal d => if d = c then some final else none
  | .step d name => if d = c then some name else none

theorem filterMap_alternativeChanges :
    (alternativeChanges head final made alternatives).filterMap (addedTarget? s c) =
      if head = s then alternatives.filterMap (leadsTo? final c) else [] := by
  split
  · next heq =>
    subst heq
    induction alternatives generalizing made with
    | nil => rfl
    | cons alternative alternatives ih =>
      cases alternative with
      | emptyWord =>
        rw [alternativeChanges, List.filterMap_cons_none rfl, List.filterMap_cons_none rfl, ih]
      | terminal d => cases made <;> simp [alternativeChanges, addedTarget?, leadsTo?, ih,
          List.filterMap_cons]
      | step d name => simp [alternativeChanges, addedTarget?, leadsTo?, ih, List.filterMap_cons]
  · next hne =>
    refine List.filterMap_eq_nil_iff.mpr fun change hmem => ?_
    refine Option.eq_none_iff_forall_ne_some.mpr fun t ht => hne ?_
    rw [Automaton.addedTarget?_eq_some.mp ht, addTransition_mem_alternativeChanges] at hmem
    exact hmem.1.symm

/-- The final state is added before a transition leads to it, so it need not be known. -/
theorem adds_alternativeChanges (hhead : head ∈ known)
    (hsteps : ∀ c t, .step c t ∈ alternatives → t ∈ known) (hmade : made = true → final ∈ known) :
    Adds known (alternativeChanges head final made alternatives) := by
  induction alternatives generalizing known made with
  | nil => exact .nil
  | cons alternative alternatives ih =>
    have hrest : ∀ c t, .step c t ∈ alternatives → t ∈ known := fun c t ht =>
      hsteps c t (List.mem_cons_of_mem _ ht)
    cases alternative with
    | emptyWord => exact .accept hhead (ih hhead hrest hmade)
    | step c name =>
      exact .addTransition c hhead (hsteps c name List.mem_cons_self) (ih hhead hrest hmade)
    | terminal c =>
      cases made with
      | true => exact .addTransition c hhead (hmade rfl) (ih hhead hrest hmade)
      | false =>
        have hhead' : head ∈ final :: known := List.mem_cons_of_mem _ hhead
        exact .addState final (.accept List.mem_cons_self
          (.addTransition c hhead' List.mem_cons_self
            (ih hhead' (fun c t ht => List.mem_cons_of_mem _ (hrest c t ht))
              fun _ => List.mem_cons_self)))

/-! ## The changes of all rules -/

/-- Each rule with the name that its final state has, should it have one. -/
def withFinals (used : List State) : List Rule → List (Rule × State)
  | [] => []
  | r :: rest =>
    (r, r.finalName used) :: withFinals (if r.hasFinal then r.finalName used :: used else used) rest

theorem changes_eq :
    changes used rules = (withFinals used rules).flatMap fun (r, final) =>
      alternativeChanges r.head final false r.alternatives := by
  induction rules generalizing used with
  | nil => rfl
  | cons r rest ih => rw [changes, withFinals, List.flatMap_cons, ih]

@[simp]
theorem map_fst_withFinals : (withFinals used rules).map Prod.fst = rules := by
  induction rules generalizing used with
  | nil => rfl
  | cons r rest ih => rw [withFinals, List.map_cons, ih]

theorem accept_mem_changes :
    Change.accept s ∈ changes used rules ↔ ∃ p ∈ withFinals used rules,
      s = p.1.head ∧ .emptyWord ∈ p.1.alternatives ∨
        s = p.2 ∧ ∃ c, .terminal c ∈ p.1.alternatives := by
  simp only [changes_eq, List.mem_flatMap, accept_mem_alternativeChanges, true_and]

theorem addTransition_mem_changes :
    Change.addTransition s c t ∈ changes used rules ↔ ∃ p ∈ withFinals used rules,
      s = p.1.head ∧ (.step c t ∈ p.1.alternatives ∨ t = p.2 ∧ .terminal c ∈ p.1.alternatives) := by
  simp only [changes_eq, List.mem_flatMap, addTransition_mem_alternativeChanges]

theorem addState_mem_changes :
    Change.addState s ∈ changes used rules ↔ ∃ p ∈ withFinals used rules,
      s = p.2 ∧ ∃ c, .terminal c ∈ p.1.alternatives := by
  simp only [changes_eq, List.mem_flatMap, addState_mem_alternativeChanges, true_and]

theorem filterMap_changes :
    (changes used rules).filterMap (addedTarget? s c) = (withFinals used rules).flatMap fun p =>
      if p.1.head = s then p.1.alternatives.filterMap (leadsTo? p.2 c) else [] := by
  rw [changes_eq, List.filterMap_flatMap]
  exact List.flatMap_congr fun p _ => filterMap_alternativeChanges

theorem finalName_not_mem (r : Rule) : r.finalName used ∉ used := by
  have h : used.contains (r.finalName used) = false :=
    not_taken_freshName roundMark (fun _ => List.contains_iff_mem.mp) (Nat.le_refl _) _
  rwa [← Bool.not_eq_true, List.contains_iff_mem] at h

theorem final_not_mem (hp : p ∈ withFinals used rules) : p.2 ∉ used := by
  induction rules generalizing used with
  | nil => cases hp
  | cons r rest ih =>
    rcases List.mem_cons.mp hp with rfl | hp
    · exact finalName_not_mem r
    · intro hused
      refine ih hp ?_
      split
      · exact List.mem_cons_of_mem _ hused
      · exact hused

theorem adds_changes (hheads : ∀ r ∈ rules, r.head ∈ known)
    (hsteps : ∀ r ∈ rules, ∀ c t, .step c t ∈ r.alternatives → t ∈ known) :
    Adds known (changes used rules) := by
  induction rules generalizing used with
  | nil => exact .nil
  | cons r rest ih =>
    obtain ⟨hhead, hheads⟩ := List.forall_mem_cons.mp hheads
    obtain ⟨hstep, hsteps⟩ := List.forall_mem_cons.mp hsteps
    have halternatives : Adds known
        (alternativeChanges r.head (r.finalName used) false r.alternatives) :=
      adds_alternativeChanges hhead hstep Bool.noConfusion
    exact halternatives.append (ih hheads hsteps)

end Rule

namespace Grammar

variable {g : Grammar} {n s t : State} {c : Char} {word : List Char}

/-! ## What a grammar generates -/

theorem generates_nil_iff : g.Generates n [] ↔ g.Has n .emptyWord := by
  constructor
  · intro h
    cases h with
    | emptyWord rule => exact rule
  · exact .emptyWord

theorem generates_cons_iff :
    g.Generates n (c :: word) ↔
      word = [] ∧ g.Has n (.terminal c) ∨ ∃ m, g.Has n (.step c m) ∧ g.Generates m word := by
  constructor
  · intro h
    cases h with
    | terminal rule => exact Or.inl ⟨rfl, rule⟩
    | step rule rest => exact Or.inr ⟨_, rule, rest⟩
  · rintro (⟨rfl, rule⟩ | ⟨m, rule, rest⟩)
    · exact .terminal rule
    · exact .step rule rest

theorem mem_undefined : t ∈ g.undefined ↔ t ∉ g.nonTerminals ∧ ∃ n c, g.Has n (.step c t) := by
  rw [undefined, mem_ascending, List.mem_filter, List.mem_filterMap, and_comm]
  refine and_congr (by simp) ⟨?_, ?_⟩
  · rintro ⟨alternative, hmem, ht⟩
    obtain ⟨r, hr, hmem⟩ := List.mem_flatMap.mp hmem
    cases alternative with
    | step c name =>
      cases ht
      exact ⟨r.head, c, r, hr, rfl, hmem⟩
    | emptyWord => cases ht
    | terminal c => cases ht
  · rintro ⟨n, c, r, hr, -, hmem⟩
    exact ⟨_, List.mem_flatMap.mpr ⟨r, hr, hmem⟩, rfl⟩

theorem undefined_eq_nil_iff :
    g.undefined = [] ↔ ∀ n c t, g.Has n (.step c t) → t ∈ g.nonTerminals := by
  rw [List.eq_nil_iff_forall_not_mem]
  simp only [mem_undefined, not_and, not_exists]
  constructor
  · intro h n c t hstep
    exact Decidable.byContradiction fun ht => h t ht n c hstep
  · intro h t ht n c hstep
    exact ht (h n c t hstep)

theorem mem_nonTerminals_of_step (h : g.undefined = []) (hstep : g.Has n (.step c t)) :
    t ∈ g.nonTerminals :=
  undefined_eq_nil_iff.mp h n c t hstep

theorem undefined_of_read {text : String} (h : read text = .ok g) : g.undefined = [] := by
  obtain ⟨rules, -, h⟩ := exists_of_bind_eq_ok h
  split at h
  · cases h
  · dsimp only at h
    split at h
    · next hundefined =>
      cases h
      exact List.isEmpty_iff.mp hundefined
    · cases h

/-! ## The automaton -/

/-- The initial symbol and all non-terminals that have a rule. -/
def names (g : Grammar) : List State :=
  g.initial :: g.nonTerminals

/-- Each rule with the name that its final state has, should it have one. -/
def finals (g : Grammar) : List (Rule × State) :=
  Rule.withFinals g.names g.rules

theorem map_head_finals : (g.finals.map fun p => p.1.head) = g.nonTerminals := by
  have hrules : g.finals.map Prod.fst = g.rules := Rule.map_fst_withFinals
  rw [nonTerminals, ← hrules, List.map_map]
  rfl

theorem has_iff {alternative : Alternative} :
    g.Has n alternative ↔ ∃ p ∈ g.finals, p.1.head = n ∧ alternative ∈ p.1.alternatives := by
  have hrules : g.rules = g.finals.map Prod.fst := Rule.map_fst_withFinals.symm
  simp only [Has, hrules, List.mem_map, exists_exists_and_eq_and]

theorem mem_names_of_has {alternative : Alternative} (h : g.Has n alternative) : n ∈ g.names := by
  obtain ⟨r, hr, rfl, -⟩ := h
  exact List.mem_cons_of_mem _ (List.mem_map_of_mem hr)

theorem mem_names_of_step (h : g.undefined = []) (hstep : g.Has n (.step c t)) : t ∈ g.names :=
  List.mem_cons_of_mem _ (mem_nonTerminals_of_step h hstep)

/-- `t` is the final state of a rule for `n`, and the rule has the terminal as an alternative. -/
def IsFinal (g : Grammar) (n : State) (c : Char) (t : State) : Prop :=
  ∃ p ∈ g.finals, p.1.head = n ∧ p.2 = t ∧ .terminal c ∈ p.1.alternatives

theorem IsFinal.not_mem (h : g.IsFinal n c t) : t ∉ g.names := by
  obtain ⟨p, hp, -, rfl, -⟩ := h
  exact Rule.final_not_mem hp

theorem exists_isFinal_iff : (∃ t, g.IsFinal n c t) ↔ g.Has n (.terminal c) := by
  rw [has_iff]
  constructor
  · rintro ⟨t, p, hp, hhead, -, hterminal⟩
    exact ⟨p, hp, hhead, hterminal⟩
  · rintro ⟨p, hp, hhead, hterminal⟩
    exact ⟨p.2, p, hp, hhead, rfl, hterminal⟩

theorem appended_toAutomaton (h : g.undefined = []) :
    Appended (Automaton.empty.addState g.initial)
      (g.nonTerminals.map .addState ++ Rule.changes g.names g.rules) g.toAutomaton := by
  have hrules : Adds g.names (Rule.changes g.names g.rules) := by
    refine Rule.adds_changes (fun r hr => ?_) fun r hr c t hstep => ?_
    · exact List.mem_cons_of_mem _ (List.mem_map_of_mem hr)
    · exact mem_names_of_step h ⟨r, hr, rfl, hstep⟩
  have hadds : Adds [g.initial] (g.nonTerminals.map .addState ++ Rule.changes g.names g.rules) :=
    hrules.map_addState fun s hs => (List.mem_cons.mp hs).imp_left List.mem_singleton.mpr
  refine Automaton.appended_changeAll (Automaton.wellFormed_addState Automaton.wellFormed_empty)
    hadds ?_
  intro s hs
  exact Automaton.mem_states_addState.mpr (Or.inr (List.mem_singleton.mp hs))

theorem added_toAutomaton (h : g.undefined = []) :
    Added (Automaton.empty.addState g.initial)
      (g.nonTerminals.map .addState ++ Rule.changes g.names g.rules) g.toAutomaton :=
  (appended_toAutomaton h).added

theorem initial_toAutomaton (h : g.undefined = []) : g.toAutomaton.initial = some g.initial :=
  (added_toAutomaton h).initial rfl

theorem mem_targets_toAutomaton (h : g.undefined = []) :
    t ∈ g.toAutomaton.targets s c ↔ g.Has s (.step c t) ∨ g.IsFinal s c t := by
  have hempty : t ∉ (Automaton.empty.addState g.initial).targets s c := by
    rw [Automaton.targets, Automaton.row_addState Automaton.wellFormed_empty]
    exact List.not_mem_nil
  simp only [(added_toAutomaton h).mem_targets, hempty, List.mem_append, List.mem_map, reduceCtorEq,
    and_false, exists_false, false_or, Rule.addTransition_mem_changes, has_iff, IsFinal, finals]
  grind

theorem mem_accepting_toAutomaton (h : g.undefined = []) :
    s ∈ g.toAutomaton.accepting ↔ g.Has s .emptyWord ∨ ∃ n c, g.IsFinal n c s := by
  have hempty : s ∉ (Automaton.empty.addState g.initial).accepting := by
    rw [Automaton.accepting_addState]
    exact List.not_mem_nil
  simp only [(added_toAutomaton h).mem_accepting, hempty, List.mem_append, List.mem_map,
    reduceCtorEq, and_false, exists_false, false_or, Rule.accept_mem_changes, has_iff, IsFinal,
    finals]
  grind

/-- The targets of a non-terminal come in the order of its alternatives. -/
theorem targets_toAutomaton (h : g.undefined = []) :
    g.toAutomaton.targets s c = (g.finals.flatMap fun p =>
      if p.1.head = s then p.1.alternatives.filterMap (Rule.leadsTo? p.2 c) else []).foldl
        appendNew [] := by
  have hempty : (Automaton.empty.addState g.initial).targets s c = [] := by
    rw [Automaton.targets, Automaton.row_addState Automaton.wellFormed_empty]
    rfl
  have hheads : (g.nonTerminals.map Change.addState).filterMap (addedTarget? s c) = [] := by
    simp [addedTarget?]
  rw [(appended_toAutomaton h).targets, hempty, List.filterMap_append, hheads, List.nil_append,
    Rule.filterMap_changes]
  rfl

/-- Without single terminals the non-terminals are the only states. -/
theorem states_toAutomaton (h : g.undefined = []) (hno : ∀ n c, ¬ g.Has n (.terminal c)) :
    g.toAutomaton.states = g.nonTerminals.foldl appendNew [g.initial] := by
  have hrules : (Rule.changes g.names g.rules).filterMap addedState? = [] := by
    refine List.filterMap_eq_nil_iff.mpr fun change hmem => ?_
    refine Option.eq_none_iff_forall_ne_some.mpr fun s hs => ?_
    rw [Automaton.addedState?_eq_some.mp hs, Rule.addState_mem_changes] at hmem
    obtain ⟨p, hp, -, c, hterminal⟩ := hmem
    exact hno _ c (has_iff.mpr ⟨p, hp, rfl, hterminal⟩)
  have hheads : (g.nonTerminals.map Change.addState).filterMap addedState? = g.nonTerminals := by
    rw [List.filterMap_map]
    exact List.filterMap_some
  rw [(appended_toAutomaton h).states, List.filterMap_append, hrules, hheads, List.append_nil]
  rfl

/-- A final state has no transitions, because it is no head. -/
theorem acceptsFrom_of_isFinal (h : g.undefined = []) (hfinal : g.IsFinal n c t) :
    g.toAutomaton.AcceptsFrom t word ↔ word = [] := by
  cases word with
  | nil =>
    rw [Automaton.acceptsFrom_nil, mem_accepting_toAutomaton h]
    exact iff_of_true (Or.inr ⟨n, c, hfinal⟩) rfl
  | cons d word =>
    simp only [Automaton.acceptsFrom_cons, mem_targets_toAutomaton h, reduceCtorEq, iff_false]
    rintro ⟨u, hstep | hfinal', -⟩
    · exact hfinal.not_mem (mem_names_of_has hstep)
    · exact hfinal.not_mem (mem_names_of_has (exists_isFinal_iff.mp ⟨u, hfinal'⟩))

theorem acceptsFrom_toAutomaton (h : g.undefined = []) (hn : n ∈ g.names) :
    g.toAutomaton.AcceptsFrom n word ↔ g.Generates n word := by
  induction word generalizing n with
  | nil =>
    rw [Automaton.acceptsFrom_nil, mem_accepting_toAutomaton h, generates_nil_iff]
    -- a non-terminal is no final state
    refine or_iff_left ?_
    rintro ⟨m, c, hfinal⟩
    exact hfinal.not_mem hn
  | cons c word ih =>
    rw [Automaton.acceptsFrom_cons, generates_cons_iff, ← exists_isFinal_iff]
    constructor
    · rintro ⟨t, ht, haccepts⟩
      rcases (mem_targets_toAutomaton h).mp ht with hstep | hfinal
      · exact Or.inr ⟨t, hstep, (ih (mem_names_of_step h hstep)).mp haccepts⟩
      · exact Or.inl ⟨(acceptsFrom_of_isFinal h hfinal).mp haccepts, t, hfinal⟩
    · rintro (⟨hword, t, hfinal⟩ | ⟨t, hstep, hgenerates⟩)
      · exact ⟨t, (mem_targets_toAutomaton h).mpr (Or.inr hfinal),
          (acceptsFrom_of_isFinal h hfinal).mpr hword⟩
      · exact ⟨t, (mem_targets_toAutomaton h).mpr (Or.inl hstep),
          (ih (mem_names_of_step h hstep)).mpr hgenerates⟩

/-- **Generating.** The automaton of a grammar that was read accepts exactly the words that the initial
symbol generates. -/
theorem acceptsWord_toAutomaton_iff_generates {text : String} (h : read text = .ok g)
    (word : List Char) : g.toAutomaton.acceptsWord word = true ↔ g.Generates g.initial word := by
  have hundefined := undefined_of_read h
  have hinitial := initial_toAutomaton hundefined
  rw [Automaton.acceptsWord_iff, Automaton.accepts_iff]
  simp only [hinitial, Option.some.injEq, exists_eq_left']
  exact acceptsFrom_toAutomaton hundefined List.mem_cons_self

/-- The head of the second rule looks like a final state of the first. -/
def marked : Grammar where
  rules :=
    [⟨"S", [.terminal 'a', .step 'b' "S'"]⟩, ⟨"S'", [.terminal 'a', .emptyWord, .step 'c' "S"]⟩]
  initial := "S"

theorem acceptsWord_toAutomaton_iff_generates_marked :
    read "S -> a | b S'\nS' -> a | & | c S" = .ok marked ∧
      marked.Generates "S" ['b', 'c', 'a'] ∧ ¬ marked.Generates "S" ['a', 'a'] := by
  have hread : read "S -> a | b S'\nS' -> a | & | c S" = .ok marked := by rfl
  have hgenerates := acceptsWord_toAutomaton_iff_generates hread
  exact ⟨hread, (hgenerates _).mp (by decide +kernel), mt (hgenerates _).mpr (by decide +kernel)⟩

end Grammar

end RegularSets
