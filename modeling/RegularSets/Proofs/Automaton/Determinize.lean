import RegularSets.Proofs.Automaton.Edit
import RegularSets.Proofs.Automaton.Merging
import RegularSets.Proofs.Automaton.Rename

/-!
# Determinization

Settling a symbol of a state lets it lead to a single state and leaves all other transitions alone
(`Settles`); the automaton goes on simulating the base. After the visit of a state none of its symbols
has several targets, and later visits do not change that, so in the end the automaton is deterministic
(`exists_simulates_merging`). Dropping useless states and renaming the rest keep this and the words,
which is the main statement, `determinize_spec`.
-/

namespace RegularSets

namespace Merging

variable {base : Automaton} {m m' m'' : Merging} {s t u : State} {c : Char} {ts : List State}
  {done done' : List Char}

/-! ## Settling symbols of a state -/

/-- On some symbols the state has one target at most afterwards, and all other transitions are as they
were. -/
structure Settles (s : State) (done : List Char) (m m' : Merging) : Prop where
  states : m.result.states <+: m'.result.states
  le_one : ∀ c ∈ done, (m'.result.targets s c).length ≤ 1
  others : ∀ u ∈ m.result.states, ∀ c, (u = s → c ∉ done) →
    m'.result.targets u c = m.result.targets u c

theorem Settles.refl (s : State) (m : Merging) : Settles s [] m m where
  states := List.prefix_rfl
  le_one := nofun
  others _ _ _ _ := rfl

theorem Settles.trans (h : Settles s done m m') (h' : Settles s done' m' m'')
    (hs : s ∈ m.result.states) (hdisjoint : ∀ c ∈ done, c ∉ done') :
    Settles s (done ++ done') m m'' where
  states := h.states.trans h'.states
  le_one c hc := by
    rcases List.mem_append.mp hc with hc | hc
    · rw [h'.others s (h.states.subset hs) c fun _ => hdisjoint c hc]
      exact h.le_one c hc
    · exact h'.le_one c hc
  others u hu c hc := by
    rw [h'.others u (h.states.subset hu) c fun heq hmem => hc heq (List.mem_append_right _ hmem)]
    exact h.others u hu c fun heq hmem => hc heq (List.mem_append_left _ hmem)

theorem settles_merge {group : List Nat} :
    Settles s [] m (m.merge base ts group) where
  states := List.prefix_append _ _
  le_one := nofun
  others u hu c _ := by
    have hne : m.mergedName base group ≠ u := fun heq => mergedName_not_mem (heq ▸ hu)
    rw [Automaton.targets, row_merge, if_neg hne, Automaton.targets]

/-- A visit settles the symbols with several targets, each of them once. -/
theorem exists_entries (base : Automaton) (m : Merging) (s : State) :
    ∃ entries : List (Char × List State), m.visit base s = entries.foldl (settle base s) m ∧
      (entries.map (·.1)).Nodup ∧
      ∀ c ts, (c, ts) ∈ entries ↔ (m.result.row s)[c]? = some ts ∧ 1 < ts.length := by
  refine ⟨_, rfl, (List.filter_sublist.map _).nodup ?_, fun c ts => ?_⟩
  · rw [Std.ExtTreeMap.map_fst_toList_eq_keys]
    exact Std.ExtTreeMap.nodup_keys
  · simp [Std.ExtTreeMap.mem_toList_iff_getElem?_eq_some]

namespace Simulates

variable (h : Simulates base m)

include h

theorem settles_direct (hs : s ∈ m.result.states) : Settles s [c] m (m.direct s c t) where
  states := List.prefix_rfl
  le_one d hd := by
    rw [h.targets_direct hs, if_pos ⟨rfl, (List.mem_singleton.mp hd).symm⟩]
    exact Nat.le_refl 1
  others u _ d hd := by
    rw [h.targets_direct hs, if_neg]
    rintro ⟨rfl, rfl⟩
    exact hd rfl (List.mem_singleton_self c)

/-- The one place of a group stands for what the whole group does. -/
theorem stands_stateAt_iff (hbase : base.WellFormed) {k : Nat} (hk : k < base.numStates) :
    m.Stands base (base.stateAt k) u ↔ ∃ j ∈ [k], base.stateAt j = u := by
  rw [h.stands_iff_of_mem_base hbase (Automaton.stateAt_mem hk)]
  simp [eq_comm]

theorem settle (hbase : base.WellFormed) (hs : s ∈ m.result.states)
    (hts : m.result.targets s c = ts) (hne : ts ≠ []) :
    Simulates base (settle base s m (c, ts)) ∧ Settles s [c] m (settle base s m (c, ts)) := by
  subst hts
  have hgroup : ∀ {u}, (∃ k ∈ m.groupOf base (m.result.targets s c), base.stateAt k = u) ↔
      ∃ t ∈ m.result.targets s c, m.Stands base t u := stands_groupOf_iff
  have hlt : ∀ k ∈ m.groupOf base (m.result.targets s c), k < base.numStates := h.groupOf_lt
  have hpairwise : (m.groupOf base (m.result.targets s c)).Pairwise (· < ·) := pairwise_groupOf
  have hcases := settle_cases base m s c (m.result.targets s c)
  generalize m.groupOf base (m.result.targets s c) = group at hgroup hlt hpairwise hcases
  rcases hcases with ⟨rfl, -⟩ | ⟨merge, hmerge, rfl, heq⟩ | ⟨k, rfl, heq⟩ | ⟨hnew, hlen, heq⟩
  · -- well-formed targets stand for something
    obtain ⟨t, ht⟩ := List.exists_mem_of_ne_nil _ hne
    obtain ⟨u, hu⟩ := h.exists_stands hbase ((h.row_fits s).mem_of_mem_targets ht)
    simpa using hgroup.mpr ⟨t, ht, hu⟩
  · rw [heq]
    refine ⟨h.direct hs (h.mem_of_merge hmerge) fun u => ?_, h.settles_direct hs⟩
    rw [h.stands_name_iff hmerge, hgroup]
  · rw [heq]
    have hk := hlt k (List.mem_singleton_self k)
    refine ⟨h.direct hs (h.mem_of_mem_base (Automaton.stateAt_mem hk)) fun u => ?_,
      h.settles_direct hs⟩
    rw [h.stands_stateAt_iff hbase hk, hgroup]
  · rw [heq]
    have hm : Simulates base (m.merge base (m.result.targets s c) group) :=
      h.merge hbase hnew hpairwise hlen hlt
    have hsm : Settles s [] m (m.merge base (m.result.targets s c) group) := settles_merge
    have hlast : ⟨m.result.targets s c, group, m.mergedName base group⟩ ∈
        (m.merge base (m.result.targets s c) group).merges := by
      simp [Merging.merge]
    have hs' := hsm.states.subset hs
    refine ⟨hm.direct hs' ?_ fun u => ?_, hsm.trans (hm.settles_direct hs') hs (by simp)⟩
    · rw [states_merge]
      exact List.mem_append_right _ (List.mem_singleton_self _)
    · rw [hm.stands_name_iff hlast, hgroup, hsm.others s hs c (by simp)]
      refine exists_congr fun t => and_congr_right fun ht => ?_
      exact (stands_merge_of_mem ((h.row_fits s).mem_of_mem_targets ht)).symm

/-- Settling several symbols one after the other. -/
theorem foldl_settle (hbase : base.WellFormed) (hs : s ∈ m.result.states)
    (entries : List (Char × List State)) (hdistinct : (entries.map (·.1)).Nodup)
    (hentries : ∀ c ts, (c, ts) ∈ entries → m.result.targets s c = ts ∧ ts ≠ []) :
    Simulates base (entries.foldl (Merging.settle base s) m) ∧
      Settles s (entries.map (·.1)) m (entries.foldl (Merging.settle base s) m) := by
  induction entries generalizing m with
  | nil => exact ⟨h, .refl s m⟩
  | cons entry entries ih =>
    obtain ⟨c, ts⟩ := entry
    rw [List.map_cons, List.nodup_cons] at hdistinct
    obtain ⟨hts, hne⟩ := hentries c ts List.mem_cons_self
    obtain ⟨hsim, hset⟩ := h.settle hbase hs hts hne
    obtain ⟨hsim', hset'⟩ := ih hsim (hset.states.subset hs) hdistinct.2 fun d us hmem => by
      rw [hset.others s hs d fun _ hd => hdistinct.1 ?_]
      · exact hentries d us (List.mem_cons_of_mem _ hmem)
      · exact List.mem_singleton.mp hd ▸ List.mem_map.mpr ⟨(d, us), hmem, rfl⟩
    refine ⟨hsim', hset.trans hset' hs fun d hd => ?_⟩
    rw [List.mem_singleton.mp hd]
    exact hdistinct.1

/-- A visit leaves at most one target on every symbol of the state and changes no other state. -/
theorem visit (hbase : base.WellFormed) (hs : s ∈ m.result.states) :
    Simulates base (m.visit base s) ∧ m.result.states <+: (m.visit base s).result.states ∧
      (∀ c, ((m.visit base s).result.targets s c).length ≤ 1) ∧
      ∀ u ∈ m.result.states, u ≠ s →
        ∀ c, (m.visit base s).result.targets u c = m.result.targets u c := by
  obtain ⟨entries, hvisit, hdistinct, hmem⟩ := exists_entries base m s
  obtain ⟨hsim, hset⟩ := h.foldl_settle hbase hs entries hdistinct fun c ts hts => by
    obtain ⟨hts, hlen⟩ := (hmem c ts).mp hts
    exact ⟨Row.targets_of_getElem? hts, List.ne_nil_of_length_pos (Nat.lt_of_succ_lt hlen)⟩
  rw [← hvisit] at hsim hset
  refine ⟨hsim, hset.states, fun c => ?_, fun u hu hne c => hset.others u hu c (absurd · hne)⟩
  by_cases hc : c ∈ entries.map (·.1)
  · exact hset.le_one c hc
  · rw [hset.others s hs c fun _ => hc]
    refine Nat.not_lt.mp fun hlt => hc ?_
    obtain ⟨t, ht⟩ := List.exists_mem_of_length_pos (Nat.lt_of_succ_lt hlt)
    exact List.mem_map.mpr ⟨_, (hmem c _).mpr ⟨Row.getElem?_of_mem_targets ht, hlt⟩, rfl⟩

end Simulates

/-! ## Visiting all states -/

/-- The states before a place have one target at most on every symbol. -/
def SettledBefore (m : Merging) (i : Nat) : Prop :=
  ∀ j < i, ∀ s, m.result.states[j]? = some s → ∀ c, (m.result.targets s c).length ≤ 1

theorem SettledBefore.visit (hbase : base.WellFormed) (h : Simulates base m) {i : Nat}
    (hsettled : m.SettledBefore i) (hi : m.result.states[i]? = some s) :
    (m.visit base s).SettledBefore (i + 1) := by
  obtain ⟨-, ⟨added, hstates⟩, hone, hothers⟩ := h.visit hbase (List.mem_of_getElem? hi)
  intro j hj u hu c
  have hlt : j < m.result.states.length :=
    Nat.lt_of_le_of_lt (Nat.le_of_lt_succ hj) (List.getElem?_eq_some_iff.mp hi).1
  rw [← hstates, List.getElem?_append_left hlt] at hu
  by_cases hus : u = s
  · exact hus ▸ hone c
  · rw [hothers u (List.mem_of_getElem? hu) hus c]
    refine hsettled j (Nat.lt_of_le_of_ne (Nat.le_of_lt_succ hj) ?_) u hu c
    rintro rfl
    exact hus (Option.some.inj (hu.symm.trans hi))

end Merging

namespace Automaton

variable {a : Automaton} {s : State} {word : List Char}

/-- Merging ends with a deterministic automaton that simulates the base. -/
theorem simulates_merging (h : a.WellFormed) :
    Merging.Simulates a a.merging ∧ a.merging.result.Deterministic := by
  have hend : ∃ i, (Merging.Simulates a a.merging ∧ a.merging.SettledBefore i) ∧
      a.merging.result.states.length ≤ i :=
    Merging.visitFrom_invariant (P := fun i m => Merging.Simulates a m ∧ m.SettledBefore i)
      (fun hP => hP.1.toTracked)
      (fun hP hs => ⟨(hP.1.visit h (List.mem_of_getElem? hs)).1, hP.2.visit h hP.1 hs⟩)
      ⟨Merging.Simulates.start h, nofun⟩ (Nat.le_refl _)
  obtain ⟨i, ⟨hsim, hsettled⟩, hi⟩ := hend
  refine ⟨hsim, fun s c => ?_⟩
  by_cases hs : s ∈ a.merging.result.states
  · obtain ⟨j, hj⟩ := List.mem_iff_getElem?.mp hs
    exact hsettled j (Nat.lt_of_lt_of_le (List.getElem?_eq_some_iff.mp hj).1 hi) s hj c
  · rw [(hsim.wellFormed h).targets_of_not_mem hs]
    exact Nat.zero_le 1

/-! ## The deterministic automaton -/

/-- The merged automaton without useless states, before renaming. -/
theorem wellFormed_useful_merging (h : a.WellFormed) :
    a.merging.result.removeUseless.WellFormed :=
  wellFormed_removeUseless ((simulates_merging h).1.wellFormed h)

/-- Determinization ends with an isomorphic copy. -/
def determinizeIso (h : a.WellFormed) :
    Isomorphism a.merging.result.removeUseless a.determinize :=
  .rename (wellFormed_useful_merging h) .canonical

theorem wellFormed_determinize (h : a.WellFormed) : a.determinize.WellFormed :=
  wellFormed_rename (wellFormed_useful_merging h)

theorem deterministic_determinize (h : a.WellFormed) : a.determinize.Deterministic := by
  obtain ⟨hsim, hdet⟩ := simulates_merging h
  exact (determinizeIso h).deterministic (wellFormed_determinize h)
    (deterministic_removeUseless (hsim.wellFormed h) hdet)

theorem accepts_determinize (h : a.WellFormed) : a.determinize.Accepts word ↔ a.Accepts word := by
  have hsim := (simulates_merging h).1
  rw [(determinizeIso h).accepts_iff (wellFormed_useful_merging h),
    accepts_removeUseless (hsim.wellFormed h), hsim.accepts_iff h]

theorem useful_determinize (h : a.WellFormed) (hs : s ∈ a.determinize.states) :
    a.determinize.Reachable s ∧ a.determinize.Live s := by
  have huseful := wellFormed_useful_merging h
  obtain ⟨t, ht, rfl⟩ := (determinizeIso h).surjective hs
  obtain ⟨hreach, hlive⟩ := useful_removeUseless ((simulates_merging h).1.wellFormed h) ht
  exact ⟨(determinizeIso h).reachable_map huseful hreach,
    ((determinizeIso h).live_iff huseful ht).mpr hlive⟩

theorem sinkName_not_mem_determinize (h : a.WellFormed) : sinkName ∉ a.determinize.states := by
  intro hs
  obtain ⟨i, hi⟩ := exists_name_of_mem_rename (wellFormed_useful_merging h) hs
  exact Naming.name_ne_sinkName hi.symm

/-- **Determinization.** Of a well-formed automaton it makes a well-formed deterministic one that
accepts the same words and all states of which are reachable and live. -/
theorem determinize_spec (h : a.WellFormed) :
    a.determinize.WellFormed ∧ a.determinize.isDeterministic = true ∧
      (∀ s ∈ a.determinize.states, a.determinize.Reachable s ∧ a.determinize.Live s) ∧
      ∀ word, a.determinize.acceptsWord word = a.acceptsWord word :=
  ⟨wellFormed_determinize h, isDeterministic_iff.mpr (deterministic_determinize h),
    fun _ hs => useful_determinize h hs, fun _ => acceptsWord_eq_of_iff (accepts_determinize h)⟩

/-- Two targets of one symbol, and a state that bears the name of both together. -/
def overlapping : Automaton :=
  (((empty.addStates ["A", "B", "AB"]).addTransition "A" 'x' "A").addTransition "A" 'x' "B"
    |>.addTransition "B" 'y' "AB").accept "AB"

theorem wellFormed_overlapping : overlapping.WellFormed :=
  wellFormed_accept (wellFormed_addTransition (wellFormed_addTransition (wellFormed_addTransition
    (wellFormed_addStates wellFormed_empty _))))

theorem determinize_spec_overlapping :
    overlapping.WellFormed ∧ overlapping.isDeterministic = false ∧
      overlapping.determinize.WellFormed ∧ overlapping.determinize.isDeterministic = true ∧
      (∀ s ∈ overlapping.determinize.states,
        overlapping.determinize.Reachable s ∧ overlapping.determinize.Live s) ∧
      ∀ word, overlapping.determinize.acceptsWord word = overlapping.acceptsWord word :=
  ⟨wellFormed_overlapping, by decide, determinize_spec wellFormed_overlapping⟩

end Automaton

end RegularSets
