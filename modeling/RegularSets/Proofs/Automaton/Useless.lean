import RegularSets.Proofs.Automaton.Change

/-!
# The useful part of an automaton

Dropping useless states keeps exactly the states that are reachable and live, with the transitions among
them (`removeUseless_spec`). A well-formed automaton is known by its states, its targets and its roles
(`WellFormed.ext`), so there is one way only to keep some of the states (`Kept.unique`). Therefore it does
not matter whether dead or inaccessible states go first: a path to a live state passes live states only,
and a path from a reachable state reachable ones only, so that either way the states that stay are the
same. For the same reason several states may be removed at once or one after the other
(`foldl_removeState`).
-/

namespace RegularSets

namespace Row

variable {row : Row}

theorem pairs_mapTargets_filter (stays : State → Bool) :
    pairs (mapTargets (List.filter stays) row) = (pairs row).filter fun (_, t) => stays t := by
  rw [pairs, pairs, mapTargets, Std.ExtTreeMap.toList_filterMap]
  induction row.toList with
  | nil => rfl
  | cons entry entries ih =>
    obtain ⟨c, ts⟩ := entry
    have hentry : ((ts.map fun t => (c, t)).filter fun (_, t) => stays t) =
        (ts.filter stays).map fun t => (c, t) := List.filter_map
    rw [List.flatMap_cons, List.filter_append, hentry, ← ih, List.filterMap_cons]
    cases ts.filter stays <;> rfl

end Row

namespace Automaton

variable {a b d : Automaton} {keep keep' : List State} {s t : State} {c : Char}

/-! ## One way of keeping states -/

namespace Kept

theorem unique (hb : b.WellFormed) (hd : d.WellFormed) (h : Kept a b keep) (h' : Kept a d keep) :
    b = d :=
  hb.ext hd (h.states.trans h'.states.symm)
    (fun s c => (h.targets s c).trans (h'.targets s c).symm) (h.initial.trans h'.initial.symm)
    (h.accepting.trans h'.accepting.symm) (h.current.trans h'.current.symm)

/-- Only the states matter that are in the list of those to keep. -/
theorem congr (ha : a.WellFormed) (h : Kept a b keep)
    (hkeep : ∀ s ∈ a.states, s ∈ keep ↔ s ∈ keep') : Kept a b keep' where
  states := h.states.trans (List.filter_congr fun s hs => decide_eq_decide.mpr (hkeep s hs))
  targets s c := by
    rw [h.targets]
    by_cases hs : s ∈ a.states
    · simp only [hkeep s hs]
      refine if_congr Iff.rfl (List.filter_congr fun t ht => ?_) rfl
      exact decide_eq_decide.mpr (hkeep t (ha.mem_of_target ht))
    · simp [ha.targets_of_not_mem hs]
  initial := h.initial.trans
    (filter_role_congr fun s hs => decide_eq_decide.mpr (hkeep s (ha.initial_mem hs)))
  accepting := h.accepting.trans
    (List.filter_congr fun s hs => decide_eq_decide.mpr (hkeep s (ha.accepting_mem hs)))
  current := h.current.trans
    (filter_role_congr fun s hs => decide_eq_decide.mpr (hkeep s (ha.current_mem hs)))

/-- Keeping some states, and then some of these. -/
theorem trans (h : Kept a b keep) (h' : Kept b d keep') :
    Kept a d (keep.filter (· ∈ keep')) where
  states := by
    rw [h'.states, h.states, List.filter_filter]
    exact List.filter_congr fun s _ => by simp [Bool.and_comm]
  targets s c := by
    rw [h'.targets, h.targets]
    by_cases hs : s ∈ keep <;> by_cases hs' : s ∈ keep' <;> simp [hs, hs', Bool.and_comm]
  initial := by
    rw [h'.initial, h.initial, Option.filter_filter]
    exact filter_role_congr fun s _ => by simp
  accepting := by
    rw [h'.accepting, h.accepting, List.filter_filter]
    exact List.filter_congr fun s _ => by simp [Bool.and_comm]
  current := by
    rw [h'.current, h.current, Option.filter_filter]
    exact filter_role_congr fun s _ => by simp

theorem row_eq (ha : a.WellFormed) (hb : b.WellFormed) (h : Kept a b keep) (hs : s ∈ keep) :
    b.row s = Row.mapTargets (List.filter (· ∈ keep)) (a.row s) := by
  refine (hb.row_fits s).ext ((ha.row_fits s).mapTargets_filter _) fun c => ?_
  rw [Row.targets_mapTargets rfl]
  exact (h.targets s c).trans (if_pos hs)

/-- The transitions that stay are those between states that stay, in the order in which they were. -/
theorem transitions_eq (ha : a.WellFormed) (hb : b.WellFormed) (h : Kept a b keep) :
    b.transitions = a.transitions.filter fun (s, _, t) => s ∈ keep ∧ t ∈ keep := by
  rw [transitions, transitions, h.states, List.filter_flatMap]
  induction a.states with
  | nil => rfl
  | cons s states ih =>
    rw [List.flatMap_cons, ← ih, List.filter_cons, List.filter_map]
    by_cases hs : s ∈ keep
    · rw [if_pos (decide_eq_true hs), List.flatMap_cons, successors, h.row_eq ha hb hs,
        Row.pairs_mapTargets_filter, successors]
      simp only [Function.comp_def, hs, true_and]
    · simp [hs, Function.comp_def]

end Kept

/-! ## One state after the other -/

section Removal

variable (h : a.WellFormed)

include h

theorem kept_removeAll_filter (gone : List State) :
    Kept a (a.removeAll gone) (a.states.filter fun s => !(gone.contains s)) := by
  have hstays : ∀ s ∈ a.states, (!(gone.contains s)) =
      decide (s ∈ a.states.filter fun s => !(gone.contains s)) := fun s hs => by simp [hs]
  refine ⟨List.filter_congr hstays, fun s c => ?_,
    filter_role_congr fun s hs => hstays s (h.initial_mem hs),
    List.filter_congr fun s hs => hstays s (h.accepting_mem hs),
    filter_role_congr fun s hs => hstays s (h.current_mem hs)⟩
  rw [targets_removeAll, List.filter_congr fun t ht => hstays t (h.mem_of_target ht)]
  by_cases hs : s ∈ a.states
  · by_cases hgone : s ∈ gone <;> simp [hs, hgone]
  · simp [h.targets_of_not_mem hs]

theorem kept_removeState (s : State) : Kept a (a.removeState s) (a.states.filter (· ≠ s)) := by
  by_cases hs : s ∈ a.states
  · rw [removeState_eq h hs]
    exact (kept_removeAll_filter h [s]).congr h fun t ht => by simp [ht]
  · rw [removeState, if_neg hs]
    refine kept_self h fun t ht => List.mem_filter.mpr ⟨ht, decide_eq_true ?_⟩
    rintro rfl
    exact hs ht

/-- Removing several states at once is removing them one after the other. -/
theorem foldl_removeState (gone : List State) : gone.foldl removeState a = a.removeAll gone := by
  induction gone generalizing a with
  | nil =>
    exact (kept_self h fun s hs => by simpa using hs).unique h (wellFormed_removeAll h)
      (kept_removeAll_filter h [])
  | cons s gone ih =>
    have hs := wellFormed_removeState h (s := s)
    rw [List.foldl_cons, ih hs]
    have hboth := (kept_removeState h s).trans (kept_removeAll_filter hs gone)
    refine (hboth.congr h fun t ht => ?_).unique (wellFormed_removeAll hs) (wellFormed_removeAll h)
      (kept_removeAll_filter h (s :: gone))
    simpa [ht, mem_states_removeState h] using fun hts _ => hts

/-- Keeping some states is removing all others, one after the other. -/
theorem retain_eq_foldl_removeState (keep : List State) :
    a.retain keep = (a.states.filter fun s => !(keep.contains s)).foldl removeState a := by
  rw [foldl_removeState h]
  exact (kept_retain h).unique (wellFormed_retain h) (wellFormed_removeAll h) (kept_removeAll h)

end Removal

/-! ## Both orders -/

section Useless

variable (h : a.WellFormed)

include h

/-- No path to a live state is lost with the dead states. -/
theorem reachable_removeDead_iff (hs : a.Live s) : a.removeDead.Reachable s ↔ a.Reachable s := by
  have hkept := kept_removeDead h
  constructor
  · intro hreach
    obtain ⟨i, word, hi, hpath⟩ := hreach
    exact ⟨i, word, (hkept.initial_eq_some.mp hi).1, hkept.path_of_path hpath⟩
  · intro hreach
    obtain ⟨i, word, hi, hpath⟩ := hreach
    obtain ⟨hpath', hlive⟩ := path_removeDead h hpath hs
    exact ⟨i, word, hkept.initial_eq_some.mpr ⟨hi, (mem_live h).mpr hlive⟩, hpath'⟩

theorem live_removeInaccessible_iff (hs : a.Reachable s) :
    a.removeInaccessible.Live s ↔ a.Live s :=
  exists_congr fun _ => acceptsFrom_removeInaccessible h hs

theorem kept_removeUseless : Kept a a.removeUseless (a.accessible.filter (· ∈ a.live)) := by
  have hd := wellFormed_removeDead h
  refine ((kept_removeDead h).trans (kept_removeInaccessible hd)).congr h fun s _ => ?_
  simp only [List.mem_filter, decide_eq_true_eq, mem_live h, mem_accessible h, mem_accessible hd]
  rw [and_comm, and_congr_left fun hlive => reachable_removeDead_iff h hlive]

theorem kept_removeDead_removeInaccessible :
    Kept a a.removeInaccessible.removeDead (a.accessible.filter (· ∈ a.live)) := by
  have hi := wellFormed_removeInaccessible h
  refine ((kept_removeInaccessible h).trans (kept_removeDead hi)).congr h fun s _ => ?_
  simp only [List.mem_filter, decide_eq_true_eq, mem_live h, mem_accessible h, mem_live hi]
  exact and_congr_right fun hreach => live_removeInaccessible_iff h hreach

omit h in
theorem retain_eq_self (hall : ∀ s ∈ a.states, s ∈ keep) : a.retain keep = a := by
  have hgone : (a.states.filter fun s => !(keep.contains s)) = [] :=
    List.filter_eq_nil_iff.mpr fun s hs => by simpa using hall s hs
  rw [retain, hgone]
  rfl

/-- If all states are useful, nothing is dropped. -/
theorem removeUseless_eq_self (hall : ∀ s ∈ a.states, a.Reachable s ∧ a.Live s) :
    a.removeUseless = a := by
  have hdead : a.removeDead = a := retain_eq_self fun s hs => (mem_live h).mpr (hall s hs).2
  rw [removeUseless, hdead]
  exact retain_eq_self fun s hs => (mem_accessible h).mpr (hall s hs).1

/-- **Useless states.** Dropping them keeps exactly the states that are reachable and live, in their
order and with the transitions among them, and the words that are accepted. A second time nothing is
dropped, and it makes no difference if the inaccessible states go before the dead ones. -/
theorem removeUseless_spec :
    (∃ useful : List State, (∀ s, s ∈ useful ↔ a.Reachable s ∧ a.Live s) ∧
        a.removeUseless.states = a.states.filter (· ∈ useful) ∧
        a.removeUseless.transitions =
          a.transitions.filter fun (s, _, t) => s ∈ useful ∧ t ∈ useful) ∧
      (∀ word, a.removeUseless.acceptsWord word = a.acceptsWord word) ∧
      a.removeUseless.removeUseless = a.removeUseless ∧
      a.removeInaccessible.removeDead = a.removeUseless := by
  have hw := wellFormed_removeUseless h
  have hkept := kept_removeUseless h
  refine ⟨⟨a.accessible.filter (· ∈ a.live), fun s => ?_, hkept.states,
    hkept.transitions_eq h hw⟩, fun word => acceptsWord_eq_of_iff (accepts_removeUseless h),
    removeUseless_eq_self hw fun s hs => useful_removeUseless h hs, ?_⟩
  · rw [List.mem_filter, decide_eq_true_eq, mem_accessible h, mem_live h]
  · exact (kept_removeDead_removeInaccessible h).unique
      (wellFormed_removeDead (wellFormed_removeInaccessible h)) hw hkept

end Useless

/-- A loop that leads nowhere, a state that nothing leads to, and one that is useless both ways; the
reading stopped in the loop. -/
def scattered : Automaton :=
  empty.changeAll [.addStates ["D", "A", "N", "B", "O"], .setInitial "A", .accept "B",
    .addTransition "A" 'x' "N", .addTransition "A" 'x' "B", .addTransition "N" 'y' "N",
    .addTransition "D" 'x' "B", .addTransition "O" 'y' "N", .reset, .read 'x']

theorem wellFormed_scattered : scattered.WellFormed :=
  wellFormed_changeAll wellFormed_empty _

theorem removeUseless_spec_scattered :
    scattered.WellFormed ∧ scattered.states = ["D", "A", "N", "B", "O"] ∧
      scattered.removeUseless.states = ["A", "B"] ∧
      (∃ useful : List State, (∀ s, s ∈ useful ↔ scattered.Reachable s ∧ scattered.Live s) ∧
        scattered.removeUseless.states = scattered.states.filter (· ∈ useful) ∧
        scattered.removeUseless.transitions =
          scattered.transitions.filter fun (s, _, t) => s ∈ useful ∧ t ∈ useful) ∧
      (∀ word, scattered.removeUseless.acceptsWord word = scattered.acceptsWord word) ∧
      scattered.removeUseless.removeUseless = scattered.removeUseless ∧
      scattered.removeInaccessible.removeDead = scattered.removeUseless :=
  ⟨wellFormed_scattered, by decide, by decide +kernel, removeUseless_spec wellFormed_scattered⟩

end Automaton

end RegularSets
