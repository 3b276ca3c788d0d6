import RegularSets.Proofs.Automaton.Reach

/-!
# Edits keep automata well-formed

Every elementary edit keeps an automaton well-formed, and what it does to the transitions is said by one
lemma each: a new state has none (`row_addState`), a new transition is one more target
(`targets_addTransition`), a removed state disappears as a source and as a target
(`targets_removeState`), and a replaced one gives its place to another (`mem_targets_replaceState`).

Replacing a state by one from which the same words are accepted loses no word, neither of the automaton
nor of any state that remains (`accepts_replaceState`, `sameWords_replaceState`).
-/

namespace RegularSets.Automaton

variable {a : Automaton} {s t u old new : State} {c d : Char} {word : List Char}

/-! ## Adding states -/

theorem mem_states_addState : t ∈ (a.addState s).states ↔ t ∈ a.states ∨ t = s := by
  unfold addState
  split
  · next hs => exact ⟨Or.inl, fun ht => ht.elim id fun heq => heq ▸ hs⟩
  · split <;> simp

theorem states_addState : (a.addState s).states = appendNew a.states s := by
  unfold addState appendNew
  split
  · rfl
  · split <;> rfl

theorem accepting_addState : (a.addState s).accepting = a.accepting := by
  unfold addState
  split
  · rfl
  · split <;> rfl

theorem initial_addState {i : State} (hi : a.initial = some i) :
    (a.addState s).initial = some i := by
  unfold addState
  split
  · exact hi
  · simp [hi]

theorem getElem?_rows_addState (hs : s ∉ a.states) :
    (a.addState s).rows[t]? = if s = t then some ∅ else a.rows[t]? := by
  have hrows : (a.addState s).rows = a.rows.insert s ∅ := by
    rw [addState, if_neg hs]
    split <;> rfl
  rw [hrows, Std.ExtTreeMap.getElem?_insert]
  simp only [Std.LawfulEqCmp.compare_eq_iff_eq]

/-- A state that is added has no transitions, and the others keep theirs. -/
theorem row_addState (h : a.WellFormed) : (a.addState s).row t = a.row t := by
  by_cases hs : s ∈ a.states
  · rw [addState, if_pos hs]
  · rw [row, getElem?_rows_addState hs]
    split
    · next hst => exact (row_eq_empty (hst ▸ mt (h.mem_rows_iff s).mp hs)).symm
    · rfl

theorem wellFormed_addState (h : a.WellFormed) : (a.addState s).WellFormed := by
  by_cases hs : s ∈ a.states
  · rwa [addState, if_pos hs]
  have hmem : ∀ {t}, t ∈ a.states → t ∈ (a.addState s).states :=
    fun ht => mem_states_addState.mpr (Or.inl ht)
  have hself : s ∈ (a.addState s).states := mem_states_addState.mpr (Or.inr rfl)
  have hstates : (a.addState s).states = a.states ++ [s] := by
    rw [addState, if_neg hs]
    split <;> rfl
  have hacc : (a.addState s).accepting = a.accepting := accepting_addState
  refine .of_fits ?_ (fun t => ?_) (fun t _ => ?_) (hacc ▸ h.nodup_accepting)
    (fun t ht => hmem (h.accepting_mem (hacc ▸ ht))) (fun t ht => ?_) (fun t ht => ?_)
  · rw [hstates]
    exact h.nodup_states.append (List.nodup_singleton s) (by simpa using hs)
  · rw [mem_states_addState, Std.ExtTreeMap.mem_iff_isSome_getElem?, getElem?_rows_addState hs,
      ← h.mem_rows_iff, Std.ExtTreeMap.mem_iff_isSome_getElem?]
    split
    · next hst => simp [hst]
    · next hst => simp [Ne.symm hst]
  · rw [row_addState h]
    exact (h.row_fits t).mono fun u hu => hmem hu
  · rw [addState, if_neg hs] at ht
    split at ht
    · exact Option.some.inj ht ▸ hself
    · exact hmem (h.initial_mem ht)
  · rw [addState, if_neg hs] at ht
    split at ht
    · exact Option.some.inj ht ▸ hself
    · exact hmem (h.current_mem ht)

theorem wellFormed_addStates (h : a.WellFormed) (states : List State) :
    (a.addStates states).WellFormed := by
  induction states generalizing a with
  | nil => exact h
  | cons s states ih => exact ih (wellFormed_addState h)

/-! ## Roles -/

theorem wellFormed_accept (h : a.WellFormed) : (a.accept s).WellFormed := by
  unfold accept
  split
  · next hs =>
    refine { h with nodup_accepting := nodup_appendNew h.nodup_accepting, accepting_mem := ?_ }
    intro t ht
    rcases mem_appendNew.mp ht with ht | rfl
    · exact h.accepting_mem ht
    · exact hs
  · exact h

theorem wellFormed_setInitial (h : a.WellFormed) : (a.setInitial s).WellFormed := by
  unfold setInitial
  split
  · next hs => exact { h with initial_mem := fun ht => Option.some.inj ht ▸ hs }
  · exact h

/-! ## Adding transitions -/

theorem addTransition_eq (h : a.WellFormed) (hs : s ∈ a.states) (ht : t ∈ a.states) :
    a.addTransition s c t = { a with rows := a.rows.insert s (Row.add (a.row s) c t) } := by
  rw [addTransition, if_pos ht, getElem?_rows ((h.mem_rows_iff s).mpr hs)]

theorem row_addTransition (h : a.WellFormed) (hs : s ∈ a.states) (ht : t ∈ a.states) :
    (a.addTransition s c t).row u = if s = u then Row.add (a.row s) c t else a.row u := by
  rw [addTransition_eq h hs ht, row, Std.ExtTreeMap.getElem?_insert]
  simp only [Std.LawfulEqCmp.compare_eq_iff_eq]
  split <;> rfl

theorem targets_addTransition (h : a.WellFormed) (hs : s ∈ a.states) (ht : t ∈ a.states) :
    (a.addTransition s c t).targets u d =
      if s = u ∧ c = d then appendNew (a.targets u d) t else a.targets u d := by
  rw [targets, row_addTransition h hs ht]
  by_cases hsu : s = u
  · subst hsu
    rw [if_pos rfl, Row.add, Row.targets_insert]
    by_cases hcd : c = d
    · simp [hcd, targets]
    · simp [hcd, targets]
  · simp [hsu, targets]

theorem wellFormed_addTransition (h : a.WellFormed) : (a.addTransition s c t).WellFormed := by
  by_cases ht : t ∈ a.states
  · by_cases hs : s ∈ a.states
    · have hrow := fun u => row_addTransition h hs ht (c := c) (u := u)
      rw [addTransition_eq h hs ht] at hrow ⊢
      refine .of_fits h.nodup_states (fun u => ?_) (fun u _ => ?_) h.nodup_accepting
        (fun u => h.accepting_mem) (fun u => h.initial_mem) (fun u => h.current_mem)
      · rw [Std.ExtTreeMap.mem_insert, Std.LawfulEqCmp.compare_eq_iff_eq, h.mem_rows_iff]
        exact ⟨fun hu => hu.elim (fun heq => heq ▸ hs) id, Or.inr⟩
      · rw [hrow]
        split
        · exact (h.row_fits s).add ht
        · exact h.row_fits u
    · rwa [addTransition, if_pos ht,
        Std.ExtTreeMap.getElem?_eq_none (mt (h.mem_rows_iff s).mp hs)]
  · rwa [addTransition, if_neg ht]

/-! ## Removing a state -/

/-- Removing one state is the simplest case of removing several. -/
theorem removeState_eq (h : a.WellFormed) (hs : s ∈ a.states) :
    a.removeState s = a.removeAll [s] := by
  have hstays : (fun t : State => !([s].contains t)) = fun t => decide (t ≠ s) := by
    funext t
    rw [List.contains_eq_mem, ← decide_not]
    simp
  rw [removeState, if_pos hs, removeAll]
  simp only [hstays]
  congr 1
  · rw [h.nodup_states.erase_eq_filter s]
    exact List.filter_congr fun t _ => by rw [bne, beq_eq_decide, decide_not]
  · refine Std.ExtTreeMap.ext_getElem? fun t => ?_
    rw [Std.ExtTreeMap.getElem?_map, Std.ExtTreeMap.getElem?_erase,
      Std.ExtTreeMap.getElem?_filterMap']
    simp only [Std.LawfulEqCmp.compare_eq_iff_eq]
    cases a.rows[t]? <;> by_cases hst : s = t <;> simp [hst, eq_comm, Row.without]

theorem wellFormed_removeState (h : a.WellFormed) : (a.removeState s).WellFormed := by
  by_cases hs : s ∈ a.states
  · rw [removeState_eq h hs]
    exact wellFormed_removeAll h
  · rwa [removeState, if_neg hs]

theorem mem_states_removeState (h : a.WellFormed) :
    t ∈ (a.removeState s).states ↔ t ∈ a.states ∧ t ≠ s := by
  by_cases hs : s ∈ a.states
  · rw [removeState_eq h hs, removeAll]
    simp
  · rw [removeState, if_neg hs]
    exact ⟨fun ht => ⟨ht, fun heq => hs (heq ▸ ht)⟩, And.left⟩

theorem targets_removeState (h : a.WellFormed) :
    (a.removeState s).targets t c = if t = s then [] else (a.targets t c).filter (· ≠ s) := by
  by_cases hs : s ∈ a.states
  · rw [removeState_eq h hs, targets_removeAll]
    simp
  · rw [removeState, if_neg hs]
    split
    · next hts => rw [hts, h.targets_of_not_mem hs]
    · refine (List.filter_eq_self.mpr fun u hu => decide_eq_true ?_).symm
      rintro rfl
      exact hs (h.mem_of_target hu)

theorem accepting_removeState (h : a.WellFormed) :
    (a.removeState s).accepting = a.accepting.filter (· ≠ s) := by
  unfold removeState
  split
  · rfl
  · next hs =>
    refine (List.filter_eq_self.mpr fun t ht => decide_eq_true ?_).symm
    rintro rfl
    exact hs (h.accepting_mem ht)

theorem initial_removeState (h : a.WellFormed) :
    (a.removeState s).initial = a.initial.filter (· ≠ s) := by
  unfold removeState
  split
  · rfl
  · next hs =>
    refine (filter_role_eq_self fun t ht => decide_eq_true ?_).symm
    rintro rfl
    exact hs (h.initial_mem ht)

theorem mem_targets_removeState (h : a.WellFormed) :
    u ∈ (a.removeState s).targets t c ↔ t ≠ s ∧ u ≠ s ∧ u ∈ a.targets t c := by
  rw [targets_removeState h]
  split
  · next hts => simp [hts]
  · next hts => simp [hts, and_comm]

theorem deterministic_removeState (h : a.WellFormed) (hdet : a.Deterministic) :
    (a.removeState s).Deterministic := by
  intro t c
  rw [targets_removeState h]
  split
  · exact Nat.zero_le 1
  · exact Nat.le_trans (List.length_filter_le _ _) (hdet t c)

/-- No accepted word passes a dead state, so removing one changes nothing for the others. -/
theorem sameWords_removeState (h : a.WellFormed) (hdead : ¬ a.Live s) (hts : t ≠ s) :
    SameWords (a.removeState s) t a t := by
  intro word
  induction word generalizing t with
  | nil => simp [acceptsFrom_nil, accepting_removeState h, hts]
  | cons c word ih =>
    simp only [acceptsFrom_cons, mem_targets_removeState h]
    constructor
    · rintro ⟨u, ⟨-, hus, hu⟩, hacc⟩
      exact ⟨u, hu, (ih hus).mp hacc⟩
    · rintro ⟨u, hu, hacc⟩
      have hus : u ≠ s := fun heq => hdead ⟨word, heq ▸ hacc⟩
      exact ⟨u, ⟨hts, hus, hu⟩, (ih hus).mpr hacc⟩

theorem accepts_removeState (h : a.WellFormed) (hdead : ¬ a.Live s) :
    (a.removeState s).Accepts word ↔ a.Accepts word := by
  simp only [accepts_iff, initial_removeState h, Option.filter_eq_some_iff, decide_eq_true_eq]
  constructor
  · rintro ⟨i, ⟨hi, his⟩, hacc⟩
    exact ⟨i, hi, (sameWords_removeState h hdead his word).mp hacc⟩
  · rintro ⟨i, hi, hacc⟩
    have his : i ≠ s := fun heq => hdead ⟨word, heq ▸ hacc⟩
    exact ⟨i, ⟨hi, his⟩, (sameWords_removeState h hdead his word).mpr hacc⟩

/-! ## Replacing a state -/

/-- The automaton with `new` in the place of `old` as a target and in the single roles. -/
def redirected (a : Automaton) (old new : State) : Automaton :=
  { a with
    rows := a.rows.map fun _ row => Row.redirect old new row
    initial := a.initial.map fun s => if s = old then new else s
    current := a.current.map fun s => if s = old then new else s }

theorem canReplace_iff :
    a.canReplace old new = true ↔ old ≠ new ∧ old ∈ a.states ∧ new ∈ a.states := by
  simp [canReplace, hasState, and_assoc]

theorem replaceState_eq (h : a.canReplace old new = true) :
    a.replaceState old new = (a.redirected old new).removeState old := by
  rw [replaceState, if_pos h, redirected]

theorem row_redirected : (a.redirected old new).row s = Row.redirect old new (a.row s) := by
  rw [row, redirected, Std.ExtTreeMap.getElem?_map, row]
  cases a.rows[s]? with
  | some row => rfl
  | none =>
    refine Std.ExtTreeMap.ext_getElem? fun c => ?_
    simp [Row.redirect]

theorem wellFormed_redirected (h : a.WellFormed) (hnew : new ∈ a.states) :
    (a.redirected old new).WellFormed := by
  have hmove : ∀ {s t : State}, s ∈ a.states → (if s = old then new else s) = t → t ∈ a.states := by
    rintro s _ hs rfl
    split
    · exact hnew
    · exact hs
  refine .of_fits h.nodup_states (fun s => ?_) (fun s _ => ?_) h.nodup_accepting
    (fun s => h.accepting_mem) (fun s hs => ?_) (fun s hs => ?_)
  · rw [redirected, Std.ExtTreeMap.mem_map, h.mem_rows_iff]
  · rw [row_redirected]
    exact (h.row_fits s).redirect hnew
  · obtain ⟨i, hi, hmap⟩ := Option.map_eq_some_iff.mp hs
    exact hmove (h.initial_mem hi) hmap
  · obtain ⟨i, hi, hmap⟩ := Option.map_eq_some_iff.mp hs
    exact hmove (h.current_mem hi) hmap

theorem wellFormed_replaceState (h : a.WellFormed) : (a.replaceState old new).WellFormed := by
  by_cases hcan : a.canReplace old new = true
  · rw [replaceState_eq hcan]
    exact wellFormed_removeState (wellFormed_redirected h (canReplace_iff.mp hcan).2.2)
  · rwa [replaceState, if_neg hcan]

section Replace

variable (h : a.WellFormed) (hcan : a.canReplace old new = true)

include h hcan

theorem mem_states_replaceState : s ∈ (a.replaceState old new).states ↔ s ∈ a.states ∧ s ≠ old := by
  rw [replaceState_eq hcan,
    mem_states_removeState (wellFormed_redirected h (canReplace_iff.mp hcan).2.2)]
  rfl

theorem mem_targets_replaceState :
    u ∈ (a.replaceState old new).targets s c ↔
      s ≠ old ∧ ∃ t ∈ a.targets s c, u = if t = old then new else t := by
  obtain ⟨hne, -, hnew⟩ := canReplace_iff.mp hcan
  rw [replaceState_eq hcan, mem_targets_removeState (wellFormed_redirected h hnew), targets,
    row_redirected, Row.mem_targets_redirect]
  refine and_congr_right fun _ => and_iff_right_of_imp ?_
  rintro ⟨t, -, rfl⟩
  split
  · exact hne.symm
  · next ht => exact ht

theorem mem_accepting_replaceState :
    s ∈ (a.replaceState old new).accepting ↔ s ∈ a.accepting ∧ s ≠ old := by
  rw [replaceState_eq hcan,
    accepting_removeState (wellFormed_redirected h (canReplace_iff.mp hcan).2.2)]
  simp [redirected]

/-- The initial state moves along with the targets. -/
theorem initial_replaceState :
    (a.replaceState old new).initial = a.initial.map fun s => if s = old then new else s := by
  obtain ⟨hne, -, hnew⟩ := canReplace_iff.mp hcan
  rw [replaceState_eq hcan, initial_removeState (wellFormed_redirected h hnew)]
  refine filter_role_eq_self fun s hs => decide_eq_true ?_
  obtain ⟨t, -, rfl⟩ := Option.map_eq_some_iff.mp hs
  split
  · exact hne.symm
  · next ht => exact ht

theorem deterministic_replaceState (hdet : a.Deterministic) :
    (a.replaceState old new).Deterministic := by
  rw [replaceState_eq hcan]
  refine deterministic_removeState (wellFormed_redirected h (canReplace_iff.mp hcan).2.2) ?_
  intro s c
  rw [targets, row_redirected]
  exact Nat.le_trans Row.length_targets_redirect_le (hdet s c)

/-- What a state accepts is accepted after the replacement from the state in its place. -/
theorem acceptsFrom_replaceState (hsame : SameWords a old a new) :
    (a.replaceState old new).AcceptsFrom (if s = old then new else s) word ↔
      a.AcceptsFrom s word := by
  obtain ⟨hne, -, -⟩ := canReplace_iff.mp hcan
  have hplace : ∀ {s}, (if s = old then new else s) ≠ old := by
    intro s
    split
    · exact hne.symm
    · next hs => exact hs
  have hmove : ∀ {s word}, a.AcceptsFrom (if s = old then new else s) word ↔
      a.AcceptsFrom s word := by
    intro s word
    split
    · next hs => exact hs ▸ (hsame word).symm
    · exact Iff.rfl
  induction word generalizing s with
  | nil =>
    rw [← hmove, acceptsFrom_nil, acceptsFrom_nil, mem_accepting_replaceState h hcan]
    exact and_iff_left hplace
  | cons c word ih =>
    rw [← hmove, acceptsFrom_cons, acceptsFrom_cons]
    simp only [mem_targets_replaceState h hcan]
    constructor
    · rintro ⟨_, ⟨-, t, ht, rfl⟩, hacc⟩
      exact ⟨t, ht, ih.mp hacc⟩
    · rintro ⟨t, ht, hacc⟩
      exact ⟨_, ⟨hplace, t, ht, rfl⟩, ih.mpr hacc⟩

/-- States that remain accept what they did, if the new state accepts what the old one did. -/
theorem sameWords_replaceState (hsame : SameWords a old a new) (hs : s ≠ old) :
    SameWords (a.replaceState old new) s a s := by
  intro word
  rw [← acceptsFrom_replaceState h hcan hsame, if_neg hs]

theorem accepts_replaceState (hsame : SameWords a old a new) :
    (a.replaceState old new).Accepts word ↔ a.Accepts word := by
  simp only [accepts_iff, initial_replaceState h hcan, Option.map_eq_some_iff]
  constructor
  · rintro ⟨_, ⟨i, hi, rfl⟩, hacc⟩
    exact ⟨i, hi, (acceptsFrom_replaceState h hcan hsame).mp hacc⟩
  · rintro ⟨i, hi, hacc⟩
    exact ⟨_, ⟨i, hi, rfl⟩, (acceptsFrom_replaceState h hcan hsame).mpr hacc⟩

end Replace

end RegularSets.Automaton
