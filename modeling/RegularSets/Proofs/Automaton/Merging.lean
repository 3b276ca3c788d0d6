import Mathlib.Data.Finset.Powerset
import Mathlib.Data.List.Nodup
import RegularSets.Automaton.Determinize
import RegularSets.Proofs.Automaton.Run
import RegularSets.Proofs.Naming

/-!
# Merging targets

What stays true while an automaton is made deterministic in place. All that can happen to it is said once,
by cases on the group of the targets of a symbol (`settle_cases`).

- `Tracked` is about the bookkeeping and holds whatever the base is: the merged states follow those of
  the base, all under new names, and each stands for a set of at least two places of the base that no
  other stands for. So with the `n` states of the base there are fewer than `2 ^ n` states at any time
  (`Tracked.length_states_lt`), and the fuel lasts until every state has been visited
  (`visitFrom_invariant`).
- `Simulates` is about transitions, for a well-formed base: a state stands for some base states, and
  what its targets on a symbol stand for is what the symbol leads those to. It makes the words that are
  accepted from a state those that are accepted from one of the base states it stands for
  (`Simulates.acceptsFrom_iff`).
-/

namespace RegularSets

namespace Merging

variable {base : Automaton} {m m' : Merging} {s t u : State} {c : Char} {targets : List State}
  {group : List Nat} {k : Nat}

/-! ## Names and groups -/

/-- The merged states are new and stand for different groups of places of the base. -/
structure Tracked (base : Automaton) (m : Merging) : Prop where
  states : m.result.states = base.states ++ m.merges.map (·.name)
  nodup_names : (m.merges.map (·.name)).Nodup
  name_not_mem : ∀ merge ∈ m.merges, merge.name ∉ base.states
  nodup_groups : (m.merges.map (·.group)).Nodup
  pairwise_group : ∀ merge ∈ m.merges, merge.group.Pairwise (· < ·)
  two_le_length : ∀ merge ∈ m.merges, 2 ≤ merge.group.length
  lt_of_mem : ∀ merge ∈ m.merges, ∀ k ∈ merge.group, k < base.numStates

/-- The groups of the merged states as sets of places. -/
def sets (m : Merging) : Finset (Finset Nat) :=
  (m.merges.map fun merge => merge.group.toFinset).toFinset

theorem mem_groupOf : k ∈ m.groupOf base targets ↔ ∃ t ∈ targets, k ∈ m.members base t := by
  simp [groupOf]

theorem pairwise_groupOf : (m.groupOf base targets).Pairwise (· < ·) :=
  (pairwise_ascending _).imp Nat.compare_eq_lt.mp

@[simp]
theorem direct_merges : (m.direct s c t).merges = m.merges := rfl

@[simp]
theorem direct_states : (m.direct s c t).result.states = m.result.states := rfl

theorem members_direct : (m.direct s c t).members base u = m.members base u := rfl

theorem mergedName_not_mem : m.mergedName base group ∉ m.result.states := by
  have hfree : m.result.hasState (m.mergedName base group) = false :=
    not_taken_freshName alternateMark (fun _ hs => of_decide_eq_true hs) (Nat.le_refl _) _
  exact of_decide_eq_false hfree

/-- What settling a symbol does depends on the group of its targets: nothing if that is empty; otherwise the
symbol leads to a merged state that stands for the group, to the one state of the group, or to a new merged
state. -/
theorem settle_cases (base : Automaton) (m : Merging) (s : State) (c : Char) (targets : List State) :
    (m.groupOf base targets = [] ∧ settle base s m (c, targets) = m) ∨
      (∃ merge ∈ m.merges, merge.group = m.groupOf base targets ∧
        settle base s m (c, targets) = m.direct s c merge.name) ∨
      (∃ k, m.groupOf base targets = [k] ∧
        settle base s m (c, targets) = m.direct s c (base.stateAt k)) ∨
      (∀ merge ∈ m.merges, merge.group ≠ m.groupOf base targets) ∧
        2 ≤ (m.groupOf base targets).length ∧
        settle base s m (c, targets) = (m.merge base targets (m.groupOf base targets)).direct s c
          (m.mergedName base (m.groupOf base targets)) := by
  rw [settle]
  generalize m.groupOf base targets = group
  split
  · next merge hfind =>
    have hgroup : merge.group = group := by simpa using List.find?_some hfind
    exact Or.inr (Or.inl ⟨merge, List.mem_of_find?_eq_some hfind, hgroup, rfl⟩)
  · next hfind =>
    have hnew : ∀ merge ∈ m.merges, merge.group ≠ group := by
      intro merge hmerge
      simpa using List.find?_eq_none.mp hfind merge hmerge
    rcases group with _ | ⟨k, _ | ⟨k', rest⟩⟩
    · exact Or.inl ⟨rfl, rfl⟩
    · exact Or.inr (Or.inr (Or.inl ⟨k, rfl, rfl⟩))
    · exact Or.inr (Or.inr (Or.inr ⟨hnew, Nat.le_add_left 2 _, rfl⟩))

namespace Tracked

theorem start (base : Automaton) : Tracked base { result := base, merges := [] } := by
  constructor <;> simp

variable (h : Tracked base m)

include h

theorem members_lt (hk : k ∈ m.members base t) : k < base.numStates := by
  rw [members] at hk
  split at hk
  · next merge hfind => exact h.lt_of_mem merge (List.mem_of_find?_eq_some hfind) k hk
  · exact lastPlace?_lt (Option.mem_toList.mp hk)

theorem groupOf_lt : ∀ k ∈ m.groupOf base targets, k < base.numStates := by
  intro k hk
  obtain ⟨t, -, hk⟩ := mem_groupOf.mp hk
  exact h.members_lt hk

theorem direct : Tracked base (m.direct s c t) :=
  ⟨h.states, h.nodup_names, h.name_not_mem, h.nodup_groups, h.pairwise_group, h.two_le_length,
    h.lt_of_mem⟩

/-- A new group makes a new merged state. -/
theorem merge (hnew : ∀ merge ∈ m.merges, merge.group ≠ group)
    (hpairwise : group.Pairwise (· < ·)) (hlen : 2 ≤ group.length)
    (hlt : ∀ k ∈ group, k < base.numStates) : Tracked base (m.merge base targets group) := by
  have hname : m.mergedName base group ∉ m.result.states := mergedName_not_mem
  rw [h.states, List.mem_append, not_or] at hname
  have hmerges : (m.merge base targets group).merges =
      m.merges ++ [⟨targets, group, m.mergedName base group⟩] := rfl
  have hall : ∀ {P : Merge → Prop}, (∀ merge ∈ m.merges, P merge) →
      P ⟨targets, group, m.mergedName base group⟩ →
      ∀ merge ∈ (m.merge base targets group).merges, P merge := by
    intro P hold hlast merge hmerge
    rw [hmerges, List.mem_append, List.mem_singleton] at hmerge
    rcases hmerge with hmerge | rfl
    · exact hold merge hmerge
    · exact hlast
  refine
    { states := ?_
      nodup_names := ?_
      name_not_mem := hall h.name_not_mem hname.1
      nodup_groups := ?_
      pairwise_group := hall h.pairwise_group hpairwise
      two_le_length := hall h.two_le_length hlen
      lt_of_mem := hall h.lt_of_mem hlt }
  · simp [Merging.merge, h.states]
  · rw [hmerges, List.map_append]
    exact h.nodup_names.append (List.nodup_singleton _) (by simpa using hname.2)
  · rw [hmerges, List.map_append]
    exact h.nodup_groups.append (List.nodup_singleton _) (by simpa using hnew)

/-- Each group is another set of places. -/
theorem card_sets : m.sets.card = m.merges.length := by
  have hnodup : (m.merges.map fun merge => merge.group.toFinset).Nodup := by
    have hgroups := h.nodup_groups
    rw [show (m.merges.map fun merge => merge.group.toFinset) =
      (m.merges.map (·.group)).map List.toFinset by rw [List.map_map]; rfl]
    refine List.Nodup.map_on (fun g hg g' hg' heq => ?_) hgroups
    obtain ⟨merge, hmerge, rfl⟩ := List.mem_map.mp hg
    obtain ⟨merge', hmerge', rfl⟩ := List.mem_map.mp hg'
    have hsorted := h.pairwise_group merge hmerge
    have hsorted' := h.pairwise_group merge' hmerge'
    exact (List.perm_of_nodup_nodup_toFinset_eq (hsorted.imp Nat.ne_of_lt)
      (hsorted'.imp Nat.ne_of_lt) heq).eq_of_pairwise
        (fun _ _ _ _ hlt hlt' => absurd hlt' (Nat.lt_asymm hlt)) hsorted hsorted'
  rw [sets, List.toFinset_card_of_nodup hnodup, List.length_map]

theorem of_mem_sets {set : Finset Nat} (hset : set ∈ m.sets) :
    set ⊆ Finset.range base.numStates ∧ 2 ≤ set.card := by
  obtain ⟨merge, hmerge, rfl⟩ := List.mem_map.mp (List.mem_toFinset.mp hset)
  refine ⟨fun k hk => Finset.mem_range.mpr ?_, ?_⟩
  · exact h.lt_of_mem merge hmerge k (List.mem_toFinset.mp hk)
  · rw [List.toFinset_card_of_nodup ((h.pairwise_group merge hmerge).imp Nat.ne_of_lt)]
    exact h.two_le_length merge hmerge

/-- Of the sets of places the empty one and those of a single place are no groups. -/
theorem length_merges_add_lt : m.merges.length + base.numStates < 2 ^ base.numStates := by
  have hdisjoint : Disjoint m.sets ((Finset.range base.numStates).powersetCard 0 ∪
      (Finset.range base.numStates).powersetCard 1) := by
    refine Finset.disjoint_left.mpr fun set hset hsmall => ?_
    have hcard := (h.of_mem_sets hset).2
    simp only [Finset.mem_union, Finset.mem_powersetCard] at hsmall
    omega
  have hsub : m.sets ∪ ((Finset.range base.numStates).powersetCard 0 ∪
      (Finset.range base.numStates).powersetCard 1) ⊆ (Finset.range base.numStates).powerset := by
    intro set hset
    simp only [Finset.mem_union, Finset.mem_powersetCard] at hset
    rcases hset with hset | ⟨hset, -⟩ | ⟨hset, -⟩
    · exact Finset.mem_powerset.mpr (h.of_mem_sets hset).1
    · exact Finset.mem_powerset.mpr hset
    · exact Finset.mem_powerset.mpr hset
  have hsmall : Disjoint ((Finset.range base.numStates).powersetCard 0)
      ((Finset.range base.numStates).powersetCard 1) :=
    Finset.pairwise_disjoint_powersetCard _ Nat.zero_ne_one
  have hcard := Finset.card_le_card hsub
  rw [Finset.card_union_of_disjoint hdisjoint, Finset.card_union_of_disjoint hsmall, h.card_sets,
    Finset.card_powersetCard, Finset.card_powersetCard, Finset.card_powerset, Finset.card_range,
    Nat.choose_zero_right, Nat.choose_one_right] at hcard
  omega

theorem length_states : m.result.states.length = base.numStates + m.merges.length := by
  rw [h.states, List.length_append, List.length_map, Automaton.numStates]

theorem length_states_lt : m.result.states.length < 2 ^ base.numStates := by
  rw [h.length_states, Nat.add_comm]
  exact h.length_merges_add_lt

end Tracked

/-! ## Visiting all states -/

/-- What every visit keeps holds in the end, and then every state has been visited. -/
theorem visitFrom_invariant {P : Nat → Merging → Prop} (htracked : ∀ {i m}, P i m → Tracked base m)
    (hvisit : ∀ {i m s}, P i m → m.result.states[i]? = some s → P (i + 1) (m.visit base s))
    {fuel i : Nat} (h : P i m) (hfuel : base.numStates + 2 ^ base.numStates ≤ fuel + i) :
    ∃ j, P j (visitFrom base fuel i m) ∧ (visitFrom base fuel i m).result.states.length ≤ j := by
  induction fuel generalizing i m with
  | zero =>
    have hlt := (htracked h).length_states_lt
    exact ⟨i, h, show m.result.states.length ≤ i by omega⟩
  | succ fuel ih =>
    rw [visitFrom]
    split
    · next hi => exact ⟨i, h, List.getElem?_eq_none_iff.mp hi⟩
    · next s hi => exact ih (hvisit h hi) (by omega)

/-! ## Standing for states of the base -/

/-- The state stands, perhaps among others, for `u`. -/
def Stands (base : Automaton) (m : Merging) (t u : State) : Prop :=
  ∃ k ∈ m.members base t, base.stateAt k = u

theorem stands_groupOf_iff :
    (∃ k ∈ m.groupOf base targets, base.stateAt k = u) ↔ ∃ t ∈ targets, m.Stands base t u := by
  simp only [mem_groupOf, Stands]
  constructor
  · intro h
    obtain ⟨k, ⟨t, ht, hk⟩, rfl⟩ := h
    exact ⟨t, ht, k, hk, rfl⟩
  · intro h
    obtain ⟨t, ht, k, hk, rfl⟩ := h
    exact ⟨k, ⟨t, ht, hk⟩, rfl⟩

theorem find?_merges_eq_none (h : s ∉ m.merges.map (·.name)) :
    m.merges.find? (·.name = s) = none := by
  refine List.find?_eq_none.mpr fun merge hmerge hname => h ?_
  exact of_decide_eq_true hname ▸ List.mem_map_of_mem hmerge

namespace Tracked

variable (h : Tracked base m)

include h

theorem mem_of_merge {merge : Merge} (hmerge : merge ∈ m.merges) :
    merge.name ∈ m.result.states := by
  rw [h.states]
  exact List.mem_append_right _ (List.mem_map_of_mem hmerge)

theorem mem_of_mem_base (hs : s ∈ base.states) : s ∈ m.result.states := by
  rw [h.states]
  exact List.mem_append_left _ hs

theorem members_name {merge : Merge} (hmerge : merge ∈ m.merges) :
    m.members base merge.name = merge.group := by
  have hfind : m.merges.find? (·.name = merge.name) = some merge := by
    cases hfind : m.merges.find? (·.name = merge.name) with
    | none => simpa using List.find?_eq_none.mp hfind merge hmerge
    | some merge' =>
      have hname : merge'.name = merge.name := by simpa using List.find?_some hfind
      exact congrArg some
        (List.inj_on_of_nodup_map h.nodup_names (List.mem_of_find?_eq_some hfind) hmerge hname)
  rw [members, hfind]

theorem members_of_mem_base (hs : s ∈ base.states) :
    m.members base s = (base.placeOf? s).toList := by
  rw [members, find?_merges_eq_none fun hname => ?_]
  obtain ⟨merge, hmerge, rfl⟩ := List.mem_map.mp hname
  exact h.name_not_mem merge hmerge hs

/-- A state of the base stands for itself alone. -/
theorem stands_iff_of_mem_base (hbase : base.WellFormed) (hs : s ∈ base.states) :
    m.Stands base s u ↔ u = s := by
  simp only [Stands, h.members_of_mem_base hs, Option.mem_toList, hbase.placeOf?_eq_some_iff]
  constructor
  · rintro ⟨k, hk, rfl⟩
    exact Automaton.stateAt_of_getElem? hk
  · rintro rfl
    obtain ⟨k, hk⟩ := List.mem_iff_getElem?.mp hs
    exact ⟨k, hk, Automaton.stateAt_of_getElem? hk⟩

theorem stands_name_iff {merge : Merge} (hmerge : merge ∈ m.merges) :
    m.Stands base merge.name u ↔ ∃ k ∈ merge.group, base.stateAt k = u := by
  rw [Stands, h.members_name hmerge]

/-- Every state stands for something. -/
theorem exists_stands (hbase : base.WellFormed) (hs : s ∈ m.result.states) :
    ∃ u, m.Stands base s u := by
  rw [h.states, List.mem_append] at hs
  rcases hs with hs | hs
  · exact ⟨s, (h.stands_iff_of_mem_base hbase hs).mpr rfl⟩
  · obtain ⟨merge, hmerge, rfl⟩ := List.mem_map.mp hs
    obtain ⟨k, hk⟩ := List.exists_mem_of_length_pos
      (Nat.lt_of_lt_of_le Nat.zero_lt_two (h.two_le_length merge hmerge))
    exact ⟨base.stateAt k, (h.stands_name_iff hmerge).mpr ⟨k, hk, rfl⟩⟩

end Tracked

/-! ## The new state of a merge -/

theorem states_merge :
    (m.merge base targets group).result.states = m.result.states ++ [m.mergedName base group] :=
  rfl

theorem stands_merge_of_mem (hs : s ∈ m.result.states) :
    (m.merge base targets group).Stands base s u ↔ m.Stands base s u := by
  have hne : m.mergedName base group ≠ s := fun heq => mergedName_not_mem (heq ▸ hs)
  have hmembers : (m.merge base targets group).members base s = m.members base s := by
    simp only [members, merge, List.find?_append]
    cases m.merges.find? (·.name = s) with
    | some merge => rfl
    | none => simp [hne]
  rw [Stands, hmembers, Stands]

theorem mem_targets_mergedRow :
    t ∈ Row.targets (mergedRow base group) c ↔ ∃ k ∈ group, t ∈ base.targets (base.stateAt k) c := by
  rw [mergedRow, Row.mem_targets_foldl_add]
  simp [Automaton.successors, Automaton.targets]

theorem fits_mergedRow (hbase : base.WellFormed) : Row.Fits (mergedRow base group) base.states := by
  refine Row.fits_empty.foldl_add fun c t hmem => ?_
  obtain ⟨k, -, hk⟩ := List.mem_flatMap.mp hmem
  exact hbase.mem_of_target (Row.mem_pairs.mp hk)

theorem row_merge :
    (m.merge base targets group).result.row s =
      if m.mergedName base group = s then mergedRow base group else m.result.row s := by
  rw [Automaton.row, merge, Std.ExtTreeMap.getElem?_insert]
  simp only [Std.LawfulEqCmp.compare_eq_iff_eq]
  split
  · rfl
  · rfl

theorem mem_accepting_merge :
    s ∈ (m.merge base targets group).result.accepting ↔
      s ∈ m.result.accepting ∨
        s = m.mergedName base group ∧ ∃ k ∈ group, base.stateAt k ∈ base.accepting := by
  have hany : (group.any fun k => base.isAccepting (base.stateAt k)) = true ↔
      ∃ k ∈ group, base.stateAt k ∈ base.accepting := by simp [Automaton.isAccepting]
  rw [merge]
  split
  · next haccepts => simp [hany.mp haccepts]
  · next haccepts => simp [mt hany.mpr haccepts]

theorem nodup_accepting_merge (h : m.result.accepting.Nodup)
    (hsub : ∀ s ∈ m.result.accepting, s ∈ m.result.states) :
    (m.merge base targets group).result.accepting.Nodup := by
  rw [merge]
  split
  · refine h.append (List.nodup_singleton _) fun s hs hname => ?_
    rw [List.mem_singleton.mp hname] at hs
    exact mergedName_not_mem (hsub _ hs)
  · exact h

/-! ## Simulating the base -/

/-- What a state's targets stand for is what the symbol leads to from the states it stands for itself,
and it accepts if one of these does. -/
structure Simulates (base : Automaton) (m : Merging) : Prop extends Tracked base m where
  mem_rows_iff : ∀ s, s ∈ m.result.rows ↔ s ∈ m.result.states
  row_fits : ∀ s, Row.Fits (m.result.row s) m.result.states
  initial : m.result.initial = base.initial
  current : m.result.current = base.current
  nodup_accepting : m.result.accepting.Nodup
  mem_accepting_iff : ∀ s, s ∈ m.result.accepting ↔
    s ∈ m.result.states ∧ ∃ u, m.Stands base s u ∧ u ∈ base.accepting
  targets_iff : ∀ s ∈ m.result.states, ∀ c u,
    (∃ t ∈ m.result.targets s c, m.Stands base t u) ↔
      ∃ v, m.Stands base s v ∧ u ∈ base.targets v c

namespace Simulates

theorem start (hbase : base.WellFormed) : Simulates base { result := base, merges := [] } := by
  have htracked := Tracked.start base
  have hstands : ∀ {s u}, s ∈ base.states →
      (Stands base { result := base, merges := [] } s u ↔ u = s) :=
    htracked.stands_iff_of_mem_base hbase
  refine { htracked with
    mem_rows_iff := hbase.mem_rows_iff
    row_fits := hbase.row_fits
    initial := rfl
    current := rfl
    nodup_accepting := hbase.nodup_accepting
    mem_accepting_iff := fun s => ?_
    targets_iff := fun s hs c u => ?_ }
  · constructor
    · exact fun hs => ⟨hbase.accepting_mem hs, s, (hstands (hbase.accepting_mem hs)).mpr rfl, hs⟩
    · intro h
      obtain ⟨hs, u, hu, hacc⟩ := h
      rwa [← (hstands hs).mp hu]
  · constructor
    · intro h
      obtain ⟨t, ht, hu⟩ := h
      rw [(hstands (hbase.mem_of_target ht)).mp hu]
      exact ⟨s, (hstands hs).mpr rfl, ht⟩
    · intro h
      obtain ⟨v, hv, hu⟩ := h
      rw [(hstands hs).mp hv] at hu
      exact ⟨u, hu, (hstands (hbase.mem_of_target hu)).mpr rfl⟩

variable (h : Simulates base m)

include h

theorem wellFormed (hbase : base.WellFormed) : m.result.WellFormed := by
  refine .of_fits ?_ h.mem_rows_iff (fun s _ => h.row_fits s) h.nodup_accepting
    (fun s hs => ((h.mem_accepting_iff s).mp hs).1)
    (fun s hs => h.mem_of_mem_base (hbase.initial_mem (h.initial ▸ hs)))
    (fun s hs => h.mem_of_mem_base (hbase.current_mem (h.current ▸ hs)))
  rw [h.states]
  refine hbase.nodup_states.append h.nodup_names fun s hs hname => ?_
  obtain ⟨merge, hmerge, rfl⟩ := List.mem_map.mp hname
  exact h.name_not_mem merge hmerge hs

/-- The words accepted from a state are those accepted from the states it stands for. -/
theorem acceptsFrom_iff {word : List Char} (hs : s ∈ m.result.states) :
    m.result.AcceptsFrom s word ↔ ∃ u, m.Stands base s u ∧ base.AcceptsFrom u word := by
  induction word generalizing s with
  | nil => simp [Automaton.acceptsFrom_nil, h.mem_accepting_iff, hs]
  | cons c word ih =>
    simp only [Automaton.acceptsFrom_cons]
    constructor
    · rintro ⟨t, ht, hacc⟩
      obtain ⟨u, htu, hacc⟩ := (ih ((h.row_fits s).mem_of_mem_targets ht)).mp hacc
      obtain ⟨v, hv, hu⟩ := (h.targets_iff s hs c u).mp ⟨t, ht, htu⟩
      exact ⟨v, hv, u, hu, hacc⟩
    · rintro ⟨v, hv, u, hu, hacc⟩
      obtain ⟨t, ht, htu⟩ := (h.targets_iff s hs c u).mpr ⟨v, hv, hu⟩
      exact ⟨t, ht, (ih ((h.row_fits s).mem_of_mem_targets ht)).mpr ⟨u, htu, hacc⟩⟩

theorem accepts_iff (hbase : base.WellFormed) {word : List Char} :
    m.result.Accepts word ↔ base.Accepts word := by
  simp only [Automaton.accepts_iff, h.initial]
  refine exists_congr fun i => and_congr_right fun hi => ?_
  have hi := hbase.initial_mem hi
  rw [h.acceptsFrom_iff (h.mem_of_mem_base hi)]
  simp [h.stands_iff_of_mem_base hbase hi]

theorem row_direct (hs : s ∈ m.result.states) :
    (m.direct s c t).result.row u =
      if s = u then (m.result.row s).insert c [t] else m.result.row u := by
  rw [Automaton.row, Merging.direct, Std.ExtTreeMap.getElem?_modify]
  simp only [Std.LawfulEqCmp.compare_eq_iff_eq]
  split
  · next hsu =>
    subst hsu
    rw [Automaton.getElem?_rows ((h.mem_rows_iff s).mpr hs)]
    rfl
  · rfl

theorem targets_direct (hs : s ∈ m.result.states) {d : Char} :
    (m.direct s c t).result.targets u d =
      if s = u ∧ c = d then [t] else m.result.targets u d := by
  rw [Automaton.targets, h.row_direct hs]
  by_cases hsu : s = u
  · subst hsu
    simp only [if_pos, Row.targets_insert, true_and]
    rfl
  · simp only [hsu, false_and, if_false]
    rfl

/-- A symbol may lead to one state that stands for the same as all of its targets together. -/
theorem direct (hs : s ∈ m.result.states) (ht : t ∈ m.result.states)
    (hstands : ∀ u, m.Stands base t u ↔ ∃ t' ∈ m.result.targets s c, m.Stands base t' u) :
    Simulates base (m.direct s c t) := by
  refine { h.toTracked.direct with
    mem_rows_iff := fun u => ?_
    row_fits := fun u => ?_
    initial := h.initial
    current := h.current
    nodup_accepting := h.nodup_accepting
    mem_accepting_iff := h.mem_accepting_iff
    targets_iff := fun u hu d v => ?_ }
  · rw [Merging.direct, Std.ExtTreeMap.mem_modify]
    exact h.mem_rows_iff u
  · rw [h.row_direct hs]
    split
    · exact (h.row_fits s).insert (List.cons_ne_nil _ _) (List.nodup_singleton t) (by simpa using ht)
    · exact h.row_fits u
  · rw [h.targets_direct hs]
    refine Iff.trans ?_ (h.targets_iff u hu d v)
    split
    · next heq =>
      obtain ⟨rfl, rfl⟩ := heq
      simpa [Stands, members_direct] using hstands v
    · rfl

/-- Adding the state for a group of at least two places that no state stands for yet. -/
theorem merge (hbase : base.WellFormed) (hnew : ∀ merge ∈ m.merges, merge.group ≠ group)
    (hpairwise : group.Pairwise (· < ·)) (hlen : 2 ≤ group.length)
    (hlt : ∀ k ∈ group, k < base.numStates) : Simulates base (m.merge base targets group) := by
  have htracked : Tracked base (m.merge base targets group) :=
    h.toTracked.merge hnew hpairwise hlen hlt
  have hname : m.mergedName base group ∉ m.result.states := mergedName_not_mem
  have hlast : ⟨targets, group, m.mergedName base group⟩ ∈ (m.merge base targets group).merges := by
    simp [Merging.merge]
  have hself : ∀ {u}, (m.merge base targets group).Stands base (m.mergedName base group) u ↔
      ∃ k ∈ group, base.stateAt k = u :=
    htracked.stands_name_iff hlast
  have hmem : ∀ {s}, s ∈ (m.merge base targets group).result.states ↔
      s ∈ m.result.states ∨ s = m.mergedName base group := by simp [states_merge]
  refine { htracked with
    mem_rows_iff := fun s => ?_
    row_fits := fun s => ?_
    initial := h.initial
    current := h.current
    nodup_accepting := ?_
    mem_accepting_iff := fun s => ?_
    targets_iff := fun s hs c u => ?_ }
  · rw [hmem, Merging.merge, Std.ExtTreeMap.mem_insert, Std.LawfulEqCmp.compare_eq_iff_eq,
      h.mem_rows_iff, or_comm, eq_comm]
  · rw [row_merge]
    split
    · exact (fits_mergedRow hbase).mono fun t ht => htracked.mem_of_mem_base ht
    · exact (h.row_fits s).mono fun t ht => hmem.mpr (Or.inl ht)
  · exact nodup_accepting_merge h.nodup_accepting fun s hs => ((h.mem_accepting_iff s).mp hs).1
  · rw [mem_accepting_merge, h.mem_accepting_iff, hmem, or_and_right]
    refine or_congr (and_congr_right fun hs => ?_) (and_congr_right ?_)
    · simp only [stands_merge_of_mem hs]
    · rintro rfl
      simp [hself]
  · rcases hmem.mp hs with hs | rfl
    · have hne : m.mergedName base group ≠ s := fun heq => hname (heq ▸ hs)
      rw [Automaton.targets, row_merge, if_neg hne]
      simp only [stands_merge_of_mem hs]
      refine Iff.trans (exists_congr fun t => and_congr_right fun ht => ?_) (h.targets_iff s hs c u)
      exact stands_merge_of_mem ((h.row_fits s).mem_of_mem_targets ht)
    · rw [Automaton.targets, row_merge, if_pos rfl]
      simp only [mem_targets_mergedRow, hself]
      constructor
      · rintro ⟨t, ⟨k, hk, ht⟩, htu⟩
        have ht' := hbase.mem_of_target ht
        rw [(htracked.stands_iff_of_mem_base hbase ht').mp htu]
        exact ⟨_, ⟨k, hk, rfl⟩, ht⟩
      · rintro ⟨_, ⟨k, hk, rfl⟩, hu⟩
        exact ⟨u, ⟨k, hk, hu⟩,
          (htracked.stands_iff_of_mem_base hbase (hbase.mem_of_target hu)).mpr rfl⟩

end Simulates

end Merging

end RegularSets
