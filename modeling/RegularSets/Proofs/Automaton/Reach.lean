import RegularSets.Automaton.Reach
import RegularSets.Proofs.Automaton.Run
import RegularSets.Proofs.Queue

/-!
# Useless states

The searches find what they are after: `accessibleFrom` lists the states to which a path leads and
`live` those from which a path leads to an accepting state. Keeping the states of a list cuts every
path that leaves the list, so it matters that live states are reached from live ones only, and that
accessible states lead to accessible ones only. Dropping the others therefore loses no accepted word,
and what remains is both reachable and live (`useful_removeUseless`).
-/

namespace RegularSets.Automaton

variable {a : Automaton} {s t u : State} {c : Char} {word : List Char}

/-! ## Searching forwards -/

theorem mem_successors : (c, t) ∈ a.successors s ↔ t ∈ a.targets s c :=
  Row.mem_pairs

theorem mem_neighbours : t ∈ (a.successors s).map (·.2) ↔ ∃ c, t ∈ a.targets s c := by
  simp [mem_successors]

theorem leads_iff_path :
    Queue.Leads (fun s => (a.successors s).map (·.2)) s t ↔ ∃ word, a.Path s word t := by
  constructor
  · intro h
    induction h with
    | refl => exact ⟨[], .nil s⟩
    | tail _ hstep ih =>
      obtain ⟨word, hpath⟩ := ih
      obtain ⟨c, hc⟩ := mem_neighbours.mp hstep
      exact ⟨word ++ [c], hpath.snoc hc⟩
  · rintro ⟨word, hpath⟩
    induction hpath with
    | nil => exact .refl
    | cons hstep _ ih => exact .head (mem_neighbours.mpr ⟨_, hstep⟩) ih

/-- The targets stored in any row. -/
def storedTargets (a : Automaton) : List State :=
  a.rows.toList.flatMap fun (_, row) => (Row.pairs row).map (·.2)

theorem length_storedTargets : a.storedTargets.length = a.numTargets := by
  simp [storedTargets, numTargets, List.length_flatMap]

theorem mem_storedTargets (h : t ∈ a.targets s c) : t ∈ a.storedTargets := by
  have hs : s ∈ a.rows := Decidable.byContradiction fun hs => by
    simp [targets, row_eq_empty hs] at h
  exact List.mem_flatMap.mpr ⟨(s, a.row s),
    Std.ExtTreeMap.mem_toList_iff_getElem?_eq_some.mpr (getElem?_rows hs),
    mem_neighbours.mpr ⟨c, h⟩⟩

/-- All that a search from `s` can find: `s` itself and stored targets. -/
def searchSpace (a : Automaton) (s : State) : Finset State :=
  insert s a.storedTargets.toFinset

theorem self_mem_searchSpace : s ∈ a.searchSpace s :=
  Finset.mem_insert_self s _

theorem neighbour_mem_searchSpace (ht : t ∈ (a.successors u).map (·.2)) : t ∈ a.searchSpace s := by
  obtain ⟨c, hc⟩ := mem_neighbours.mp ht
  exact Finset.mem_insert_of_mem (List.mem_toFinset.mpr (mem_storedTargets hc))

/-- The fuel of a search lasts for its space. -/
theorem card_searchSpace_le : (a.searchSpace s).card ≤ a.numTargets + 1 := by
  refine (Finset.card_insert_le _ _).trans (Nat.succ_le_succ ?_)
  exact (List.toFinset_card_le _).trans_eq length_storedTargets

theorem mem_accessibleFrom :
    t ∈ a.accessibleFrom s ↔ s ∈ a.states ∧ ∃ word, a.Path s word t := by
  rw [accessibleFrom]
  split
  · next hs =>
    rw [Queue.mem_explore (a.searchSpace s) (List.forall_mem_singleton.mpr self_mem_searchSpace)
      (fun _ _ _ => neighbour_mem_searchSpace) card_searchSpace_le]
    simp [hs, leads_iff_path]
  · next hs => simp [hs]

theorem mem_accessible (h : a.WellFormed) : s ∈ a.accessible ↔ a.Reachable s := by
  rw [accessible, Reachable]
  split
  · next hi => simp [hi]
  · next i hi => simp [hi, mem_accessibleFrom, h.initial_mem hi]

/-! ## Searching backwards -/

theorem mem_transitions (h : a.WellFormed) : (s, c, t) ∈ a.transitions ↔ t ∈ a.targets s c := by
  rw [transitions, List.mem_flatMap]
  constructor
  · rintro ⟨u, -, hmem⟩
    obtain ⟨⟨d, v⟩, hmem, heq⟩ := List.mem_map.mp hmem
    cases heq
    exact mem_successors.mp hmem
  · intro ht
    exact ⟨s, h.mem_of_source ht, List.mem_map.mpr ⟨(c, t), mem_successors.mpr ht, rfl⟩⟩

theorem mem_sourcesOf (h : a.WellFormed) : s ∈ a.sourcesOf t ↔ ∃ c, t ∈ a.targets s c := by
  simp only [sourcesOf, List.mem_map, List.mem_filter, decide_eq_true_eq]
  constructor
  · rintro ⟨⟨s, c, t⟩, ⟨hmem, rfl⟩, rfl⟩
    exact ⟨c, (mem_transitions h).mp hmem⟩
  · rintro ⟨c, hc⟩
    exact ⟨(s, c, t), ⟨(mem_transitions h).mpr hc, rfl⟩, rfl⟩

theorem leads_sourcesOf_iff (h : a.WellFormed) :
    Queue.Leads a.sourcesOf t s ↔ ∃ word, a.Path s word t := by
  constructor
  · intro hleads
    induction hleads with
    | refl => exact ⟨[], .nil t⟩
    | tail _ hstep ih =>
      obtain ⟨word, hpath⟩ := ih
      obtain ⟨c, hc⟩ := (mem_sourcesOf h).mp hstep
      exact ⟨c :: word, .cons hc hpath⟩
  · rintro ⟨word, hpath⟩
    induction hpath with
    | nil => exact .refl
    | cons hstep _ ih => exact .tail ih ((mem_sourcesOf h).mpr ⟨_, hstep⟩)

theorem mem_live (h : a.WellFormed) : s ∈ a.live ↔ a.Live s := by
  let sources := a.transitions.map (·.1)
  rw [live, Queue.mem_explore (a.accepting.toFinset ∪ sources.toFinset)
    (fun x hx => Finset.mem_union_left _ (List.mem_toFinset.mpr hx))]
  · simp only [leads_sourcesOf_iff h, Live, AcceptsFrom]
    constructor
    · rintro ⟨t, ht, word, hpath⟩
      exact ⟨word, t, hpath, ht⟩
    · rintro ⟨word, t, hpath, ht⟩
      exact ⟨t, ht, word, hpath⟩
  · intro x _ y hy
    refine Finset.mem_union_right _ (List.mem_toFinset.mpr ?_)
    exact ((List.filter_sublist (l := a.transitions)).map _).subset hy
  · refine (Finset.card_union_le _ _).trans (Nat.add_le_add (List.toFinset_card_le _) ?_)
    exact (List.toFinset_card_le _).trans_eq (List.length_map _)

/-! ## Keeping some of the states -/

/-- What is left of a well-formed automaton if only the states of a list are kept. -/
structure Kept (a b : Automaton) (keep : List State) : Prop where
  states : b.states = a.states.filter (· ∈ keep)
  targets : ∀ s c, b.targets s c = if s ∈ keep then (a.targets s c).filter (· ∈ keep) else []
  initial : b.initial = a.initial.filter (· ∈ keep)
  accepting : b.accepting = a.accepting.filter (· ∈ keep)
  current : b.current = a.current.filter (· ∈ keep)

section Removal

variable {gone : List State}

theorem getElem?_rows_removeAll :
    (a.removeAll gone).rows[s]? =
      if s ∈ gone then none
      else (a.rows[s]?).map (Row.mapTargets (List.filter fun s => !(gone.contains s))) := by
  rw [removeAll, Std.ExtTreeMap.getElem?_filterMap']
  cases a.rows[s]? <;> by_cases hs : s ∈ gone <;> simp [hs]

theorem row_removeAll :
    (a.removeAll gone).row s =
      if s ∈ gone then ∅
      else Row.mapTargets (List.filter fun s => !(gone.contains s)) (a.row s) := by
  rw [row, getElem?_rows_removeAll]
  split
  · rfl
  · rw [row]
    cases a.rows[s]? with
    | some row => rfl
    | none =>
      refine Std.ExtTreeMap.ext_getElem? fun c => ?_
      simp [Row.getElem?_mapTargets]

theorem wellFormed_removeAll (h : a.WellFormed) : (a.removeAll gone).WellFormed := by
  have hmem : ∀ {s}, s ∈ (a.removeAll gone).states ↔ s ∈ a.states ∧ s ∉ gone := by
    simp [removeAll]
  refine .of_fits (h.nodup_states.filter _) (fun s => ?_) (fun s hs => ?_)
    (h.nodup_accepting.filter _) (fun s hs => ?_) (fun s hs => ?_) (fun s hs => ?_)
  · rw [hmem, ← h.mem_rows_iff, Std.ExtTreeMap.mem_iff_isSome_getElem?, getElem?_rows_removeAll,
      Std.ExtTreeMap.mem_iff_isSome_getElem?]
    split <;> simp [*]
  · rw [row_removeAll, if_neg (hmem.mp hs).2]
    exact (h.row_fits s).mapTargets_filter _
  · have hs := List.mem_filter.mp hs
    exact List.mem_filter.mpr ⟨h.accepting_mem hs.1, hs.2⟩
  · have hs := Option.filter_eq_some_iff.mp hs
    exact List.mem_filter.mpr ⟨h.initial_mem hs.1, hs.2⟩
  · have hs := Option.filter_eq_some_iff.mp hs
    exact List.mem_filter.mpr ⟨h.current_mem hs.1, hs.2⟩

theorem targets_removeAll :
    (a.removeAll gone).targets s c =
      if s ∈ gone then [] else (a.targets s c).filter fun t => !(gone.contains t) := by
  rw [targets, row_removeAll]
  split
  · exact Row.targets_empty
  · exact Row.targets_mapTargets rfl

end Removal

section Retain

variable {keep : List State} {role : Option State} {p q : State → Bool}

theorem filter_role_congr (h : ∀ s, role = some s → p s = q s) : role.filter p = role.filter q := by
  cases role with
  | none => rfl
  | some s => simp only [Option.filter_some, h s rfl]

theorem filter_role_eq_self (h : ∀ s, role = some s → p s = true) : role.filter p = role := by
  cases role with
  | none => rfl
  | some s => exact Option.filter_some_pos (h s rfl)

/-- Among the states, those that do not go are those to keep. -/
theorem stays_iff (hs : s ∈ a.states) :
    (!((a.states.filter fun s => !(keep.contains s)).contains s)) = decide (s ∈ keep) := by
  simp [hs]

theorem kept_removeAll (h : a.WellFormed) :
    Kept a (a.removeAll (a.states.filter fun s => !(keep.contains s))) keep where
  states := List.filter_congr fun _ hs => stays_iff hs
  targets s c := by
    rw [targets_removeAll]
    by_cases hs : s ∈ a.states
    · have hiff : s ∈ (a.states.filter fun s => !(keep.contains s)) ↔ s ∉ keep := by simp [hs]
      rw [List.filter_congr fun t ht => stays_iff (h.mem_of_target ht)]
      simp only [hiff, ite_not]
    · simp [h.targets_of_not_mem hs]
  initial := filter_role_congr fun _ hs => stays_iff (h.initial_mem hs)
  accepting := List.filter_congr fun _ hs => stays_iff (h.accepting_mem hs)
  current := filter_role_congr fun _ hs => stays_iff (h.current_mem hs)

/-- If all states are to be kept, the automaton is left as it is. -/
theorem kept_self (h : a.WellFormed) (hall : ∀ s ∈ a.states, s ∈ keep) : Kept a a keep where
  states := (List.filter_eq_self.mpr (by simpa using hall)).symm
  targets s c := by
    by_cases hs : s ∈ a.states
    · rw [if_pos (hall s hs), List.filter_eq_self.mpr]
      exact fun t ht => decide_eq_true (hall t (h.mem_of_target ht))
    · simp [h.targets_of_not_mem hs]
  initial := (filter_role_eq_self fun s hs => decide_eq_true (hall s (h.initial_mem hs))).symm
  accepting := by
    refine (List.filter_eq_self.mpr fun s hs => ?_).symm
    exact decide_eq_true (hall s (h.accepting_mem hs))
  current := (filter_role_eq_self fun s hs => decide_eq_true (hall s (h.current_mem hs))).symm

theorem kept_retain (h : a.WellFormed) : Kept a (a.retain keep) keep := by
  simp only [retain]
  split
  · next hgone =>
    refine kept_self h fun s hs => ?_
    simpa using List.filter_eq_nil_iff.mp (List.isEmpty_iff.mp hgone) s hs
  · exact kept_removeAll h

theorem wellFormed_retain (h : a.WellFormed) : (a.retain keep).WellFormed := by
  simp only [retain]
  split
  · exact h
  · exact wellFormed_removeAll h

end Retain

/-! ## Paths among the states that are kept -/

namespace Kept

variable {b : Automaton} {keep : List State} (h : Kept a b keep)

include h

theorem mem_states : s ∈ b.states ↔ s ∈ a.states ∧ s ∈ keep := by
  simp [h.states]

theorem mem_accepting : s ∈ b.accepting ↔ s ∈ a.accepting ∧ s ∈ keep := by
  simp [h.accepting]

theorem initial_eq_some : b.initial = some s ↔ a.initial = some s ∧ s ∈ keep := by
  simp [h.initial, Option.filter_eq_some_iff]

theorem mem_targets : t ∈ b.targets s c ↔ t ∈ a.targets s c ∧ s ∈ keep ∧ t ∈ keep := by
  rw [h.targets]
  split
  · next hs => simp [hs]
  · next hs => simp [hs]

theorem deterministic (hdet : a.Deterministic) : b.Deterministic := by
  intro s c
  rw [h.targets]
  split
  · exact (List.length_filter_le _ _).trans (hdet s c)
  · exact Nat.zero_le _

theorem path_of_path (hpath : b.Path s word t) : a.Path s word t := by
  induction hpath with
  | nil s => exact .nil s
  | cons hstep _ ih => exact .cons (h.mem_targets.mp hstep).1 ih

theorem acceptsFrom_of_acceptsFrom (hacc : b.AcceptsFrom s word) : a.AcceptsFrom s word := by
  obtain ⟨t, hpath, ht⟩ := hacc
  exact ⟨t, h.path_of_path hpath, (h.mem_accepting.mp ht).1⟩

/-- Targets of states that are kept are kept: no path from such a state is lost. -/
theorem path_of_forward (hclosed : ∀ s ∈ keep, ∀ c, ∀ t ∈ a.targets s c, t ∈ keep)
    (hpath : a.Path s word t) (hs : s ∈ keep) : b.Path s word t ∧ t ∈ keep := by
  induction hpath with
  | nil s => exact ⟨.nil s, hs⟩
  | cons hstep _ ih =>
    have hu := hclosed _ hs _ _ hstep
    exact ⟨.cons (h.mem_targets.mpr ⟨hstep, hs, hu⟩) (ih hu).1, (ih hu).2⟩

/-- Sources of states that are kept are kept: no path to such a state is lost. -/
theorem path_of_backward (hclosed : ∀ t ∈ keep, ∀ s c, t ∈ a.targets s c → s ∈ keep)
    (hpath : a.Path s word t) (ht : t ∈ keep) : b.Path s word t ∧ s ∈ keep := by
  induction hpath with
  | nil s => exact ⟨.nil s, ht⟩
  | cons hstep _ ih =>
    obtain ⟨hrest, hu⟩ := ih ht
    have hs := hclosed _ hu _ _ hstep
    exact ⟨.cons (h.mem_targets.mpr ⟨hstep, hs, hu⟩) hrest, hs⟩

end Kept

/-! ## Dropping dead states -/

section Dead

variable (h : a.WellFormed)

include h

theorem kept_removeDead : Kept a a.removeDead a.live :=
  kept_retain h

theorem wellFormed_removeDead : a.removeDead.WellFormed :=
  wellFormed_retain h

/-- No path to a live state is lost. -/
theorem path_removeDead (hpath : a.Path s word t) (ht : a.Live t) :
    a.removeDead.Path s word t ∧ a.Live s := by
  simp only [← mem_live h] at ht ⊢
  refine (kept_removeDead h).path_of_backward (fun t ht s c hstep => ?_) hpath ht
  rw [mem_live h] at ht ⊢
  exact ht.of_step hstep

theorem acceptsFrom_removeDead : a.removeDead.AcceptsFrom s word ↔ a.AcceptsFrom s word := by
  refine ⟨(kept_removeDead h).acceptsFrom_of_acceptsFrom, fun ⟨t, hpath, ht⟩ => ?_⟩
  have hlive : a.Live t := ⟨[], acceptsFrom_nil.mpr ht⟩
  exact ⟨t, (path_removeDead h hpath hlive).1,
    (kept_removeDead h).mem_accepting.mpr ⟨ht, (mem_live h).mpr hlive⟩⟩

theorem accepts_removeDead : a.removeDead.Accepts word ↔ a.Accepts word := by
  simp only [accepts_iff, (kept_removeDead h).initial_eq_some, acceptsFrom_removeDead h]
  constructor
  · rintro ⟨s, ⟨hs, -⟩, hacc⟩
    exact ⟨s, hs, hacc⟩
  · rintro ⟨s, hs, hacc⟩
    exact ⟨s, ⟨hs, (mem_live h).mpr ⟨word, hacc⟩⟩, hacc⟩

theorem live_of_mem_removeDead (hs : s ∈ a.removeDead.states) : a.removeDead.Live s := by
  obtain ⟨word, hacc⟩ := (mem_live h).mp ((kept_removeDead h).mem_states.mp hs).2
  exact ⟨word, (acceptsFrom_removeDead h).mpr hacc⟩

end Dead

/-! ## Dropping inaccessible states -/

section Inaccessible

variable (h : a.WellFormed)

include h

theorem kept_removeInaccessible : Kept a a.removeInaccessible a.accessible :=
  kept_retain h

theorem wellFormed_removeInaccessible : a.removeInaccessible.WellFormed :=
  wellFormed_retain h

/-- No path from an accessible state is lost. -/
theorem path_removeInaccessible (hs : a.Reachable s) (hpath : a.Path s word t) :
    a.removeInaccessible.Path s word t ∧ a.Reachable t := by
  simp only [← mem_accessible h] at hs ⊢
  refine (kept_removeInaccessible h).path_of_forward (fun s hs c t ht => ?_) hpath hs
  rw [mem_accessible h] at hs ⊢
  exact hs.step ht

theorem acceptsFrom_removeInaccessible (hs : a.Reachable s) :
    a.removeInaccessible.AcceptsFrom s word ↔ a.AcceptsFrom s word := by
  refine ⟨(kept_removeInaccessible h).acceptsFrom_of_acceptsFrom, fun ⟨t, hpath, ht⟩ => ?_⟩
  obtain ⟨hpath', ht'⟩ := path_removeInaccessible h hs hpath
  exact ⟨t, hpath',
    (kept_removeInaccessible h).mem_accepting.mpr ⟨ht, (mem_accessible h).mpr ht'⟩⟩

theorem initial_removeInaccessible : a.removeInaccessible.initial = a.initial := by
  rw [(kept_removeInaccessible h).initial]
  refine filter_role_eq_self fun i hi => decide_eq_true ((mem_accessible h).mpr ?_)
  exact ⟨i, [], hi, .nil i⟩

theorem accepts_removeInaccessible : a.removeInaccessible.Accepts word ↔ a.Accepts word := by
  simp only [accepts_iff, initial_removeInaccessible h]
  exact exists_congr fun s => and_congr_right fun hs =>
    acceptsFrom_removeInaccessible h ⟨s, [], hs, .nil s⟩

theorem reachable_of_mem_removeInaccessible (hs : s ∈ a.removeInaccessible.states) :
    a.removeInaccessible.Reachable s := by
  obtain ⟨i, word, hi, hpath⟩ :=
    (mem_accessible h).mp ((kept_removeInaccessible h).mem_states.mp hs).2
  exact ⟨i, word, (initial_removeInaccessible h).trans hi,
    (path_removeInaccessible h ⟨i, [], hi, .nil i⟩ hpath).1⟩

end Inaccessible

/-! ## Dropping useless states -/

section Useless

variable (h : a.WellFormed)

include h

theorem wellFormed_removeUseless : a.removeUseless.WellFormed :=
  wellFormed_removeInaccessible (wellFormed_removeDead h)

theorem deterministic_removeUseless (hdet : a.Deterministic) : a.removeUseless.Deterministic :=
  (kept_removeInaccessible (wellFormed_removeDead h)).deterministic
    ((kept_removeDead h).deterministic hdet)

theorem accepts_removeUseless : a.removeUseless.Accepts word ↔ a.Accepts word :=
  (accepts_removeInaccessible (wellFormed_removeDead h)).trans (accepts_removeDead h)

/-- All states that remain are reachable and live. -/
theorem useful_removeUseless (hs : s ∈ a.removeUseless.states) :
    a.removeUseless.Reachable s ∧ a.removeUseless.Live s := by
  have hd := wellFormed_removeDead h
  obtain ⟨hmem, hacc⟩ := (kept_removeInaccessible hd).mem_states.mp hs
  obtain ⟨word, hword⟩ := live_of_mem_removeDead h hmem
  exact ⟨reachable_of_mem_removeInaccessible hd hs, word,
    (acceptsFrom_removeInaccessible hd ((mem_accessible hd).mp hacc)).mpr hword⟩

end Useless

end RegularSets.Automaton
