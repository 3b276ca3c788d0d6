import RegularSets.Proofs.Automaton.Change

/-!
# Histories that only add

A history that adds states, and accepting roles and transitions only of states that it has added before
(`Adds`), leaves what was there and adds what it says. States and targets come in the order in which
they are added (`appended_changeAll`). Where the order does not matter, it is enough that transitions and
roles can be read off the list of changes (`Added`).
-/

namespace RegularSets.Automaton

variable {known more : List State} {changes changes' : List Change} {a : Automaton}

/-- The changes add states, and roles and transitions of states that are known by then. -/
inductive Adds : List State → List Change → Prop
  | nil {known : List State} : Adds known []
  | addState {known : List State} {changes : List Change} (s : State)
      (rest : Adds (s :: known) changes) : Adds known (.addState s :: changes)
  | accept {known : List State} {changes : List Change} {s : State} (state : s ∈ known)
      (rest : Adds known changes) : Adds known (.accept s :: changes)
  | addTransition {known : List State} {changes : List Change} {s t : State} (c : Char)
      (source : s ∈ known) (target : t ∈ known) (rest : Adds known changes) :
      Adds known (.addTransition s c t :: changes)

namespace Adds

theorem mono (h : Adds known changes) (hmore : ∀ s ∈ known, s ∈ more) : Adds more changes := by
  induction h generalizing more with
  | nil => exact .nil
  | addState s _ ih =>
    refine .addState s (ih fun t ht => ?_)
    rcases List.mem_cons.mp ht with rfl | ht
    · exact List.mem_cons_self
    · exact List.mem_cons_of_mem s (hmore t ht)
  | accept state _ ih => exact .accept (hmore _ state) (ih hmore)
  | addTransition c source target _ ih =>
    exact .addTransition c (hmore _ source) (hmore _ target) (ih hmore)

theorem append (h : Adds known changes) (h' : Adds known changes') :
    Adds known (changes ++ changes') := by
  induction h with
  | nil => exact h'
  | addState s _ ih => exact .addState s (ih (h'.mono fun t ht => List.mem_cons_of_mem s ht))
  | accept state _ ih => exact .accept state (ih h')
  | addTransition c source target _ ih => exact .addTransition c source target (ih h')

/-- States that are added first are known to what follows. -/
theorem map_addState {states : List State} (h : Adds more changes)
    (hmore : ∀ s ∈ more, s ∈ known ∨ s ∈ states) :
    Adds known (states.map Change.addState ++ changes) := by
  induction states generalizing known with
  | nil => exact h.mono fun s hs => (hmore s hs).resolve_right List.not_mem_nil
  | cons s states ih =>
    refine .addState s (ih fun t ht => ?_)
    rcases hmore t ht with hknown | hstates
    · exact Or.inl (List.mem_cons_of_mem s hknown)
    · rcases List.mem_cons.mp hstates with rfl | hstates
      · exact Or.inl List.mem_cons_self
      · exact Or.inr hstates

end Adds

/-- `b` is `a` with the transitions and accepting states that are added by the changes. -/
structure Added (a : Automaton) (changes : List Change) (b : Automaton) : Prop where
  initial : ∀ {i : State}, a.initial = some i → b.initial = some i
  mem_targets : ∀ {s t : State} {c : Char},
    t ∈ b.targets s c ↔ t ∈ a.targets s c ∨ .addTransition s c t ∈ changes
  mem_accepting : ∀ {s : State}, s ∈ b.accepting ↔ s ∈ a.accepting ∨ .accept s ∈ changes

/-! ## In order -/

/-- The state that a change adds. -/
def addedState? : Change → Option State
  | .addState s => some s
  | _ => none

/-- The target that a change adds to a state on a symbol. -/
def addedTarget? (s : State) (c : Char) : Change → Option State
  | .addTransition s' c' t => if s' = s ∧ c' = c then some t else none
  | _ => none

theorem addedState?_eq_some {change : Change} {s : State} :
    addedState? change = some s ↔ change = .addState s := by
  cases change <;> simp [addedState?]

theorem addedTarget?_eq_some {change : Change} {s t : State} {c : Char} :
    addedTarget? s c change = some t ↔ change = .addTransition s c t := by
  cases change <;> simp [addedTarget?, and_assoc]

/-- `b` is `a` with what the changes add; new states and new targets come last, in the order of the
changes. -/
structure Appended (a : Automaton) (changes : List Change) (b : Automaton) : Prop where
  states : b.states = (changes.filterMap addedState?).foldl appendNew a.states
  initial : ∀ {i : State}, a.initial = some i → b.initial = some i
  targets : ∀ s c, b.targets s c =
    (changes.filterMap (addedTarget? s c)).foldl appendNew (a.targets s c)
  mem_accepting : ∀ {s : State}, s ∈ b.accepting ↔ s ∈ a.accepting ∨ .accept s ∈ changes

theorem Appended.added {b : Automaton} (h : Appended a changes b) : Added a changes b where
  initial := h.initial
  mem_targets {s t c} := by
    simp only [h.targets, mem_foldl_appendNew, List.mem_filterMap, addedTarget?_eq_some,
      exists_eq_right]
  mem_accepting := h.mem_accepting

theorem appended_changeAll (h : a.WellFormed) (hadds : Adds known changes)
    (hknown : ∀ s ∈ known, s ∈ a.states) : Appended a changes (a.changeAll changes) := by
  induction hadds generalizing a with
  | nil => exact ⟨rfl, id, fun _ _ => rfl, by simp [changeAll]⟩
  | addState s _ ih =>
    have hstates : ∀ t ∈ s :: _, t ∈ (a.addState s).states := fun t ht =>
      mem_states_addState.mpr ((List.mem_cons.mp ht).elim Or.inr fun ht => Or.inl (hknown t ht))
    have hrest := ih (wellFormed_addState h) hstates
    refine ⟨hrest.states.trans ?_, fun hi => hrest.initial (initial_addState hi),
      fun u d => (hrest.targets u d).trans ?_, hrest.mem_accepting.trans ?_⟩
    · rw [states_addState]
      rfl
    · rw [targets, row_addState h]
      rfl
    · rw [accepting_addState]
      simp
  | @accept _ _ s state _ ih =>
    have hs := hknown s state
    have heq : a.accept s = { a with accepting := appendNew a.accepting s } := if_pos hs
    have hrest := ih (a := a.accept s) (wellFormed_accept h) (heq ▸ hknown)
    refine ⟨hrest.states.trans (by rw [heq]; rfl), fun hi => hrest.initial (heq ▸ hi),
      fun u d => (hrest.targets u d).trans (by rw [heq]; rfl), hrest.mem_accepting.trans ?_⟩
    rw [heq]
    simp [or_assoc]
  | @addTransition _ changes s t c source target _ ih =>
    have hs := hknown s source
    have ht := hknown t target
    have heq := addTransition_eq h hs ht (c := c)
    have hrest := ih (a := a.addTransition s c t) (wellFormed_addTransition h) (heq ▸ hknown)
    refine ⟨hrest.states.trans (by rw [heq]; rfl), fun hi => hrest.initial (heq ▸ hi),
      fun u d => (hrest.targets u d).trans ?_, hrest.mem_accepting.trans ?_⟩
    · rw [targets_addTransition h hs ht]
      by_cases hmatch : s = u ∧ c = d
      · have hadded : addedTarget? u d (.addTransition s c t) = some t := if_pos hmatch
        rw [if_pos hmatch, List.filterMap_cons_some hadded, List.foldl_cons]
      · have hadded : addedTarget? u d (.addTransition s c t) = none := if_neg hmatch
        rw [if_neg hmatch, List.filterMap_cons_none hadded]
    · rw [heq]
      simp

end RegularSets.Automaton
