import RegularSets.Proofs.Automaton.Useless

/-!
# Removing a state

A path says which symbols are read but not which states are passed, so what is left of the accepted words
when a state goes is said with routes: a `Route` is a path together with the states it visits, and a word
is accepted through these states (`AcceptsThrough`). If only some of the states are kept, the routes that
remain are those that visit kept states only (`Kept.acceptsThrough_iff`); this holds for any set of states
that is kept, closed under transitions or not. Removing one state keeps all others, and the transitions
that remain are those that do not touch it, in the order in which they were (`removeState_spec`).
-/

namespace RegularSets.Automaton

variable {a b : Automaton} {keep visited : List State} {role : Option State} {s t u : State} {c : Char}
  {word : List Char}

/-! ## Routes -/

/-- The word labels a path from one state to another that visits just these states in this order, both
ends included. -/
inductive Route (a : Automaton) : State → List Char → List State → State → Prop
  | nil (s : State) : Route a s [] [s] s
  | cons {s t u : State} {c : Char} {word : List Char} {visited : List State}
      (step : t ∈ a.targets s c) (rest : Route a t word visited u) :
      Route a s (c :: word) (s :: visited) u

/-- The word labels a route from the initial state to an accepting one through just these states. -/
def AcceptsThrough (a : Automaton) (visited : List State) (word : List Char) : Prop :=
  ∃ s t, a.initial = some s ∧ a.Route s word visited t ∧ t ∈ a.accepting

namespace Route

theorem path (h : a.Route s word visited t) : a.Path s word t := by
  induction h with
  | nil s => exact .nil s
  | cons step _ ih => exact .cons step ih

theorem start_mem (h : a.Route s word visited t) : s ∈ visited := by
  cases h with
  | nil => exact List.mem_singleton_self s
  | cons => exact List.mem_cons_self

theorem end_mem (h : a.Route s word visited t) : t ∈ visited := by
  induction h with
  | nil s => exact List.mem_singleton_self s
  | cons _ _ ih => exact List.mem_cons_of_mem _ ih

end Route

theorem Path.exists_route (h : a.Path s word t) : ∃ visited, a.Route s word visited t := by
  induction h with
  | nil s => exact ⟨[s], .nil s⟩
  | cons step _ ih =>
    obtain ⟨visited, hroute⟩ := ih
    exact ⟨_ :: visited, .cons step hroute⟩

theorem WellFormed.mem_of_route (h : a.WellFormed) (hs : s ∈ a.states)
    (hroute : a.Route s word visited t) : ∀ u ∈ visited, u ∈ a.states := by
  induction hroute with
  | nil s => exact List.forall_mem_singleton.mpr hs
  | cons step _ ih => exact List.forall_mem_cons.mpr ⟨hs, ih (h.mem_of_target step)⟩

/-- Every accepted word is accepted through some states. -/
theorem accepts_iff_exists_acceptsThrough :
    a.Accepts word ↔ ∃ visited, a.AcceptsThrough visited word := by
  constructor
  · rintro ⟨s, t, hs, hpath, ht⟩
    obtain ⟨visited, hroute⟩ := hpath.exists_route
    exact ⟨visited, s, t, hs, hroute, ht⟩
  · rintro ⟨visited, s, t, hs, hroute, ht⟩
    exact ⟨s, t, hs, hroute.path, ht⟩

/-! ## Routes among the states that are kept -/

namespace Kept

variable (h : Kept a b keep)

include h

theorem route_of_route (hroute : b.Route s word visited t) (hs : s ∈ keep) :
    a.Route s word visited t ∧ ∀ u ∈ visited, u ∈ keep := by
  induction hroute with
  | nil s => exact ⟨.nil s, List.forall_mem_singleton.mpr hs⟩
  | cons step _ ih =>
    obtain ⟨hstep, -, ht⟩ := h.mem_targets.mp step
    obtain ⟨hroute, hvisited⟩ := ih ht
    exact ⟨.cons hstep hroute, List.forall_mem_cons.mpr ⟨hs, hvisited⟩⟩

theorem route_of_forall_mem (hroute : a.Route s word visited t) (hvisited : ∀ u ∈ visited, u ∈ keep) :
    b.Route s word visited t := by
  induction hroute with
  | nil s => exact .nil s
  | cons step hrest ih =>
    obtain ⟨hs, hvisited⟩ := List.forall_mem_cons.mp hvisited
    have ht := hvisited _ hrest.start_mem
    exact .cons (h.mem_targets.mpr ⟨step, hs, ht⟩) (ih hvisited)

/-- What is accepted among the states that are kept was accepted without leaving them. -/
theorem acceptsThrough_iff :
    b.AcceptsThrough visited word ↔ a.AcceptsThrough visited word ∧ ∀ u ∈ visited, u ∈ keep := by
  constructor
  · rintro ⟨s, t, hs, hroute, ht⟩
    obtain ⟨hs, hkeep⟩ := h.initial_eq_some.mp hs
    obtain ⟨hroute, hvisited⟩ := h.route_of_route hroute hkeep
    exact ⟨⟨s, t, hs, hroute, (h.mem_accepting.mp ht).1⟩, hvisited⟩
  · rintro ⟨⟨s, t, hs, hroute, ht⟩, hvisited⟩
    exact ⟨s, t, h.initial_eq_some.mpr ⟨hs, hvisited s hroute.start_mem⟩,
      h.route_of_forall_mem hroute hvisited, h.mem_accepting.mpr ⟨ht, hvisited t hroute.end_mem⟩⟩

end Kept

/-! ## All states but one -/

theorem mem_others_iff (ht : t ∈ a.states) : t ∈ a.states.filter (· ≠ s) ↔ t ≠ s := by
  rw [List.mem_filter, decide_eq_true_eq]
  exact and_iff_right ht

/-- A role is lost if the state that goes has it. -/
theorem filter_ne_role : role.filter (· ≠ s) = if role = some s then none else role := by
  cases role with
  | none => rfl
  | some t => by_cases hts : t = s <;> simp [hts]

section RemoveState

variable (h : a.WellFormed)

include h

theorem states_removeState : (a.removeState s).states = a.states.filter (· ≠ s) :=
  (kept_removeState h s).states.trans
    (List.filter_congr fun _ ht => decide_eq_decide.mpr (mem_others_iff ht))

theorem current_removeState : (a.removeState s).current = a.current.filter (· ≠ s) :=
  (kept_removeState h s).current.trans
    (filter_role_congr fun _ ht => decide_eq_decide.mpr (mem_others_iff (h.current_mem ht)))

theorem transitions_removeState :
    (a.removeState s).transitions = a.transitions.filter fun (u, _, t) => u ≠ s ∧ t ≠ s := by
  rw [(kept_removeState h s).transitions_eq h (wellFormed_removeState h)]
  refine List.filter_congr fun ⟨u, c, t⟩ hmem => decide_eq_decide.mpr ?_
  have ht : t ∈ a.targets u c := (mem_transitions h).mp hmem
  exact and_congr (mem_others_iff (h.mem_of_source ht)) (mem_others_iff (h.mem_of_target ht))

theorem acceptsThrough_removeState :
    (a.removeState s).AcceptsThrough visited word ↔ a.AcceptsThrough visited word ∧ s ∉ visited := by
  refine (kept_removeState h s).acceptsThrough_iff.trans (and_congr_right fun hacc => ?_)
  obtain ⟨i, t, hi, hroute, -⟩ := hacc
  have hstates : ∀ u ∈ visited, u ∈ a.states := h.mem_of_route (h.initial_mem hi) hroute
  constructor
  · intro hvisited hs
    exact (mem_others_iff (hstates s hs)).mp (hvisited s hs) rfl
  · intro hs u hu
    refine (mem_others_iff (hstates u hu)).mpr ?_
    rintro rfl
    exact hs hu

end RemoveState

/-- **Removing a state.** The transitions left are those neither from the state nor to it, and the states
and accepting states left are all others, each in the order in which they were. The initial and the
current state stay unless it was this one, and then there is none. The words still accepted are those that
were accepted on a route past the state. -/
theorem removeState_spec (h : a.WellFormed) (s : State) :
    (a.removeState s).transitions = a.transitions.filter (fun (u, _, t) => u ≠ s ∧ t ≠ s) ∧
      (a.removeState s).states = a.states.filter (· ≠ s) ∧
      (a.removeState s).accepting = a.accepting.filter (· ≠ s) ∧
      (a.removeState s).initial = (if a.initial = some s then none else a.initial) ∧
      (a.removeState s).current = (if a.current = some s then none else a.current) ∧
      ∀ word, (a.removeState s).acceptsWord word = true ↔
        ∃ visited, a.AcceptsThrough visited word ∧ s ∉ visited := by
  refine ⟨transitions_removeState h, states_removeState h, accepting_removeState h,
    (initial_removeState h).trans filter_ne_role, (current_removeState h).trans filter_ne_role,
    fun word => ?_⟩
  rw [acceptsWord_iff, accepts_iff_exists_acceptsThrough]
  exact exists_congr fun visited => acceptsThrough_removeState h

/-- Two routes for one word, past a state with a loop and past another; the state with the loop accepts and
is the current one. -/
def detour : Automaton :=
  empty.changeAll [.addStates ["A", "M", "N", "B"], .addTransition "A" 'x' "M",
    .addTransition "A" 'x' "N", .addTransition "M" 'y' "M", .addTransition "M" 'y' "B",
    .addTransition "N" 'y' "B", .addTransition "N" 'z' "M", .addTransition "B" 'z' "A",
    .accept "M", .accept "B", .read 'x']

theorem wellFormed_detour : detour.WellFormed :=
  wellFormed_changeAll wellFormed_empty _

theorem removeState_spec_detour :
    detour.WellFormed ∧ detour.current = some "M" ∧ "M" ∈ detour.states ∧
      (detour.removeState "M").transitions =
        [("A", 'x', "N"), ("N", 'y', "B"), ("B", 'z', "A")] ∧
      (detour.removeState "M").transitions =
        detour.transitions.filter (fun (u, _, t) => u ≠ "M" ∧ t ≠ "M") ∧
      (detour.removeState "M").states = detour.states.filter (· ≠ "M") ∧
      (detour.removeState "M").accepting = detour.accepting.filter (· ≠ "M") ∧
      (detour.removeState "M").initial =
        (if detour.initial = some "M" then none else detour.initial) ∧
      (detour.removeState "M").current =
        (if detour.current = some "M" then none else detour.current) ∧
      ∀ word, (detour.removeState "M").acceptsWord word = true ↔
        ∃ visited, detour.AcceptsThrough visited word ∧ "M" ∉ visited :=
  ⟨wellFormed_detour, by decide, by decide, by decide +kernel, removeState_spec wellFormed_detour "M"⟩

end RegularSets.Automaton
