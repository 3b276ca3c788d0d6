import RegularSets.Proofs.Automaton.Row

/-!
# Paths and words

The computed ways of reading agree with the paths: a word is accepted exactly if it labels a path from
the initial state to an accepting one (`acceptsWord_iff`). The rest are the laws of paths that the
constructions on automata use: the words accepted from a state, symbol by symbol
(`acceptsFrom_cons`), the symbols that can be read (`Path.mem_alphabet`), what a well-formed automaton
can reach, and runs of deterministic automata.
-/

namespace RegularSets.Automaton

variable {a b : Automaton} {s t u : State} {c : Char} {word rest : List Char} {i j : Nat}

/-! ## Paths -/

@[simp]
theorem path_nil_iff : a.Path s [] t ↔ s = t := by
  constructor
  · intro h
    cases h
    rfl
  · rintro rfl
    exact .nil s

@[simp]
theorem path_cons_iff : a.Path s (c :: word) t ↔ ∃ u ∈ a.targets s c, a.Path u word t := by
  constructor
  · intro h
    rcases h with _ | ⟨hstep, hrest⟩
    exact ⟨_, hstep, hrest⟩
  · intro h
    obtain ⟨u, hu, hrest⟩ := h
    exact .cons hu hrest

theorem path_append_iff :
    a.Path s (word ++ rest) t ↔ ∃ u, a.Path s word u ∧ a.Path u rest t := by
  induction word generalizing s with
  | nil => simp
  | cons c word ih =>
    simp only [List.cons_append, path_cons_iff, ih]
    constructor
    · intro h
      obtain ⟨v, hv, u, hvu, hut⟩ := h
      exact ⟨u, ⟨v, hv, hvu⟩, hut⟩
    · intro h
      obtain ⟨u, ⟨v, hv, hvu⟩, hut⟩ := h
      exact ⟨v, hv, u, hvu, hut⟩

theorem Path.append (h : a.Path s word u) (h' : a.Path u rest t) : a.Path s (word ++ rest) t :=
  path_append_iff.mpr ⟨u, h, h'⟩

theorem Path.snoc (h : a.Path s word u) (ht : t ∈ a.targets u c) : a.Path s (word ++ [c]) t :=
  h.append (.cons ht (.nil t))

/-- What holds of all labels holds of the symbols of a path. -/
theorem Path.forall_label {p : Char → Prop} (h : a.Path s word t)
    (hp : ∀ s c t, t ∈ a.targets s c → p c) : ∀ c ∈ word, p c := by
  induction h with
  | nil => exact nofun
  | cons hstep _ ih => exact List.forall_mem_cons.mpr ⟨hp _ _ _ hstep, ih⟩

/-! ## Accepted words -/

theorem acceptsFrom_nil : a.AcceptsFrom s [] ↔ s ∈ a.accepting := by
  simp [AcceptsFrom]

theorem acceptsFrom_cons :
    a.AcceptsFrom s (c :: word) ↔ ∃ t ∈ a.targets s c, a.AcceptsFrom t word := by
  simp only [AcceptsFrom, path_cons_iff]
  constructor
  · intro h
    obtain ⟨u, ⟨t, ht, htu⟩, hu⟩ := h
    exact ⟨t, ht, u, htu, hu⟩
  · intro h
    obtain ⟨t, ht, u, htu, hu⟩ := h
    exact ⟨u, ⟨t, ht, htu⟩, hu⟩

theorem AcceptsFrom.of_path (h : a.Path s word t) (ht : a.AcceptsFrom t rest) :
    a.AcceptsFrom s (word ++ rest) := by
  obtain ⟨u, hu, hacc⟩ := ht
  exact ⟨u, h.append hu, hacc⟩

theorem accepts_iff : a.Accepts word ↔ ∃ s, a.initial = some s ∧ a.AcceptsFrom s word := by
  simp only [Accepts, AcceptsFrom, exists_and_left]

theorem mem_reach {l : List State} : t ∈ a.reach l word ↔ ∃ s ∈ l, a.Path s word t := by
  induction word generalizing l with
  | nil => simp [reach]
  | cons c word ih =>
    refine (ih (l := a.step l c)).trans ?_
    simp only [mem_step, path_cons_iff]
    constructor
    · intro h
      obtain ⟨u, ⟨s, hs, hu⟩, hut⟩ := h
      exact ⟨s, hs, u, hu, hut⟩
    · intro h
      obtain ⟨s, hs, u, hu, hut⟩ := h
      exact ⟨u, ⟨s, hs, hu⟩, hut⟩

theorem acceptsWord_iff : a.acceptsWord word = true ↔ a.Accepts word := by
  simp only [acceptsWord, List.any_eq_true, mem_reach, isAccepting, decide_eq_true_eq,
    Option.mem_toList, Accepts]
  constructor
  · intro h
    obtain ⟨t, ⟨s, hs, hpath⟩, ht⟩ := h
    exact ⟨s, t, hs, hpath, ht⟩
  · intro h
    obtain ⟨s, t, hs, hpath, ht⟩ := h
    exact ⟨t, ⟨s, hs, hpath⟩, ht⟩

theorem acceptsWord_eq_of_iff (h : a.Accepts word ↔ b.Accepts word) :
    a.acceptsWord word = b.acceptsWord word :=
  Bool.eq_iff_iff.mpr (acceptsWord_iff.trans (h.trans acceptsWord_iff.symm))

/-- The same words are accepted from two states, which may be states of two automata. -/
def SameWords (a : Automaton) (s : State) (b : Automaton) (t : State) : Prop :=
  ∀ word, a.AcceptsFrom s word ↔ b.AcceptsFrom t word

theorem SameWords.symm (h : SameWords a s b t) : SameWords b t a s :=
  fun word => (h word).symm

theorem SameWords.trans {d : Automaton} (h : SameWords a s b t) (h' : SameWords b t d u) :
    SameWords a s d u :=
  fun word => (h word).trans (h' word)

theorem SameWords.live (h : SameWords a s b t) (hlive : a.Live s) : b.Live t := by
  obtain ⟨word, hword⟩ := hlive
  exact ⟨word, (h word).mp hword⟩

theorem SameWords.live_iff (h : SameWords a s b t) : a.Live s ↔ b.Live t :=
  ⟨h.live, h.symm.live⟩

/-- If two automata accept the same words, so do their initial states, as soon as one of these is
live. -/
theorem exists_initial_sameWords (h : ∀ word, a.Accepts word ↔ b.Accepts word)
    (hs : a.initial = some s) (hlive : a.Live s) : ∃ t, b.initial = some t ∧ SameWords a s b t := by
  obtain ⟨word, hword⟩ := hlive
  obtain ⟨t, ht, -⟩ := accepts_iff.mp ((h word).mp (accepts_iff.mpr ⟨s, hs, hword⟩))
  refine ⟨t, ht, fun word => ?_⟩
  have hiff := h word
  simpa only [accepts_iff, hs, ht, Option.some.injEq, exists_eq_left'] using hiff

theorem Live.of_path (h : a.Path s word t) (ht : a.Live t) : a.Live s := by
  obtain ⟨rest, hrest⟩ := ht
  exact ⟨word ++ rest, .of_path h hrest⟩

theorem Live.of_step (ht : t ∈ a.targets s c) (h : a.Live t) : a.Live s :=
  h.of_path (.cons ht (.nil t))

theorem Reachable.step (h : a.Reachable s) (ht : t ∈ a.targets s c) : a.Reachable t := by
  obtain ⟨i, word, hi, hpath⟩ := h
  exact ⟨i, word ++ [c], hi, hpath.snoc ht⟩

/-- A path between a reachable and a live state is part of an accepted word. -/
theorem exists_accepts_of_path (hs : a.Reachable s) (hpath : a.Path s word t) (ht : a.Live t) :
    ∃ before after, a.Accepts (before ++ (word ++ after)) := by
  obtain ⟨i, before, hi, hbefore⟩ := hs
  obtain ⟨after, hafter⟩ := ht
  exact ⟨before, after, accepts_iff.mpr ⟨i, hi, .of_path hbefore (.of_path hpath hafter)⟩⟩

/-! ## Well-formed automata -/

theorem row_eq_empty (h : s ∉ a.rows) : a.row s = ∅ := by
  rw [row, Std.ExtTreeMap.getElem?_eq_none h, Option.getD_none]

theorem row_of_getElem? {row : Row} (h : a.rows[s]? = some row) : a.row s = row := by
  simp [Automaton.row, h]

theorem getElem?_rows (h : s ∈ a.rows) : a.rows[s]? = some (a.row s) := by
  rw [row, Std.ExtTreeMap.getElem?_eq_some_getElem h, Option.getD_some]

/-- In a map from distinct states to things of a list each state has the thing at its place. -/
theorem getElem?_ofList_zip {β : Type} {states : List State} {things : List β} {i : Nat} {x : β}
    (hnodup : states.Nodup) (hlength : states.length = things.length) (hs : states[i]? = some s)
    (hx : things[i]? = some x) : (Std.ExtTreeMap.ofList (states.zip things))[s]? = some x := by
  have hkeys : ((states.zip things).map Prod.fst).Nodup := by
    rwa [List.map_fst_zip (Nat.le_of_eq hlength)]
  refine Std.ExtTreeMap.getElem?_ofList_of_mem Std.ReflCmp.compare_self ?_ ?_
  · exact (List.pairwise_map.mp hkeys).imp fun hne heq => hne (Std.LawfulEqCmp.eq_of_compare heq)
  · exact List.mem_of_getElem? (List.getElem?_zip_eq_some.mpr ⟨hs, hx⟩)

/-- Symbols that can be read belong to the alphabet. -/
theorem mem_alphabet (ht : t ∈ a.targets s c) : c ∈ a.alphabet := by
  have hs : s ∈ a.rows := Decidable.byContradiction fun hs => by
    simp [targets, row_eq_empty hs] at ht
  rw [alphabet, mem_ascending]
  refine List.mem_flatMap.mpr ⟨(s, a.row s), ?_, ?_⟩
  · exact Std.ExtTreeMap.mem_toList_iff_getElem?_eq_some.mpr (getElem?_rows hs)
  · rw [Std.ExtTreeMap.mem_keys, Std.ExtTreeMap.mem_iff_isSome_getElem?,
      Row.getElem?_of_mem_targets ht]
    rfl

theorem Path.mem_alphabet (h : a.Path s word t) : ∀ c ∈ word, c ∈ a.alphabet :=
  h.forall_label fun _ _ _ ht => Automaton.mem_alphabet ht

theorem AcceptsFrom.mem_alphabet (h : a.AcceptsFrom s word) : ∀ c ∈ word, c ∈ a.alphabet := by
  obtain ⟨t, hpath, -⟩ := h
  exact hpath.mem_alphabet

/-- Alphabets are in increasing order, so one with the same symbols is the same list. -/
theorem alphabet_congr (h : ∀ c, c ∈ a.alphabet ↔ c ∈ b.alphabet) : a.alphabet = b.alphabet := by
  simp only [alphabet, mem_ascending] at h
  exact ascending_congr h

/-- A word with a symbol from outside the alphabet is rejected. -/
theorem acceptsWord_eq_false (hc : c ∈ word) (hnot : c ∉ a.alphabet) :
    a.acceptsWord word = false := by
  rw [← Bool.not_eq_true, acceptsWord_iff, accepts_iff]
  rintro ⟨s, -, hacc⟩
  exact hnot (hacc.mem_alphabet c hc)

/-- Rows that fit make an automaton well-formed, if its states and roles do. -/
theorem WellFormed.of_fits (hnodup : a.states.Nodup) (hrows : ∀ s, s ∈ a.rows ↔ s ∈ a.states)
    (hfits : ∀ s ∈ a.states, Row.Fits (a.row s) a.states) (haccepting : a.accepting.Nodup)
    (hsub : ∀ s ∈ a.accepting, s ∈ a.states) (hinitial : ∀ s, a.initial = some s → s ∈ a.states)
    (hcurrent : ∀ s, a.current = some s → s ∈ a.states) : a.WellFormed := by
  have hfits' : ∀ {s : State} {row : Row}, a.rows[s]? = some row → Row.Fits row a.states := by
    intro s row h
    rw [← row_of_getElem? h]
    refine hfits s ((hrows s).mp ?_)
    rw [Std.ExtTreeMap.mem_iff_isSome_getElem?, h]
    rfl
  exact
    { nodup_states := hnodup
      mem_rows_iff := hrows
      targets_ne_nil := fun h hc => (hfits' h _ _ hc).1
      nodup_targets := fun h hc => (hfits' h _ _ hc).2.1
      target_mem := fun h hc ht => (hfits' h _ _ hc).2.2 _ ht
      nodup_accepting := haccepting
      accepting_mem := fun {s} => hsub s
      initial_mem := fun {s} => hinitial s
      current_mem := fun {s} => hcurrent s }

namespace WellFormed

variable (h : a.WellFormed)

include h

theorem row_fits (s : State) : Row.Fits (a.row s) a.states := by
  by_cases hs : s ∈ a.rows
  · exact fun c ts hc => ⟨h.targets_ne_nil (getElem?_rows hs) hc,
      h.nodup_targets (getElem?_rows hs) hc, fun t => h.target_mem (getElem?_rows hs) hc⟩
  · rw [row_eq_empty hs]
    exact Row.fits_empty

theorem mem_of_target (ht : t ∈ a.targets s c) : t ∈ a.states :=
  (h.row_fits s).mem_of_mem_targets ht

theorem targets_of_not_mem (hs : s ∉ a.states) : a.targets s c = [] := by
  rw [targets, row_eq_empty (mt (h.mem_rows_iff s).mp hs), Row.targets_empty]

theorem mem_of_source (ht : t ∈ a.targets s c) : s ∈ a.states := by
  refine Decidable.byContradiction fun hs => ?_
  rw [h.targets_of_not_mem hs] at ht
  cases ht

theorem mem_of_path (hs : s ∈ a.states) (hpath : a.Path s word t) : t ∈ a.states := by
  induction hpath with
  | nil => exact hs
  | cons hstep _ ih => exact ih (h.mem_of_target hstep)

theorem mem_of_acceptsFrom (hacc : a.AcceptsFrom s word) : s ∈ a.states := by
  obtain ⟨t, hpath, ht⟩ := hacc
  cases hpath with
  | nil => exact h.accepting_mem ht
  | cons hstep _ => exact h.mem_of_source hstep

theorem mem_of_live (hlive : a.Live s) : s ∈ a.states := by
  obtain ⟨_, hacc⟩ := hlive
  exact h.mem_of_acceptsFrom hacc

theorem mem_of_reachable (hs : a.Reachable s) : s ∈ a.states := by
  obtain ⟨i, word, hi, hpath⟩ := hs
  exact h.mem_of_path (h.initial_mem hi) hpath

/-- No list of targets is empty, so each symbol of the alphabet leads somewhere. -/
theorem exists_of_mem_alphabet (hc : c ∈ a.alphabet) : ∃ s t, t ∈ a.targets s c := by
  rw [alphabet, mem_ascending] at hc
  obtain ⟨⟨s, row⟩, hmem, hkey⟩ := List.mem_flatMap.mp hc
  have hrow : a.rows[s]? = some row := Std.ExtTreeMap.mem_toList_iff_getElem?_eq_some.mp hmem
  rw [Std.ExtTreeMap.mem_keys, Std.ExtTreeMap.mem_iff_isSome_getElem?] at hkey
  obtain ⟨ts, hts⟩ := Option.isSome_iff_exists.mp hkey
  obtain ⟨t, ht⟩ := List.exists_mem_of_ne_nil ts (h.targets_ne_nil hrow hts)
  exact ⟨s, t, by rwa [targets, row_of_getElem? hrow, Row.targets_of_getElem? hts]⟩

end WellFormed

/-- A well-formed automaton is known by its states, its targets and its roles. -/
theorem WellFormed.ext (ha : a.WellFormed) (hb : b.WellFormed) (hstates : a.states = b.states)
    (htargets : ∀ s c, a.targets s c = b.targets s c) (hinitial : a.initial = b.initial)
    (haccepting : a.accepting = b.accepting) (hcurrent : a.current = b.current) : a = b := by
  have hrow : ∀ s, a.row s = b.row s := fun s => (ha.row_fits s).ext (hb.row_fits s) (htargets s)
  have hrows : a.rows = b.rows := by
    refine Std.ExtTreeMap.ext_getElem? fun s => ?_
    by_cases hs : s ∈ a.states
    · rw [getElem?_rows ((ha.mem_rows_iff s).mpr hs),
        getElem?_rows ((hb.mem_rows_iff s).mpr (hstates ▸ hs)), hrow]
    · rw [Std.ExtTreeMap.getElem?_eq_none (mt (ha.mem_rows_iff s).mp hs),
        Std.ExtTreeMap.getElem?_eq_none (mt (hb.mem_rows_iff s).mp (hstates ▸ hs))]
  cases a
  cases b
  simp only at hstates hinitial haccepting hcurrent hrows
  subst hstates hinitial haccepting hcurrent hrows
  rfl

/-! ## Places -/

theorem stateAt_of_getElem? (h : a.states[i]? = some s) : a.stateAt i = s := by
  simp [stateAt, h]

theorem getElem?_states (h : i < a.numStates) : a.states[i]? = some (a.stateAt i) := by
  have hi : a.states[i]? = some a.states[i] := List.getElem?_eq_getElem h
  rw [stateAt_of_getElem? hi, hi]

theorem stateAt_mem (h : i < a.numStates) : a.stateAt i ∈ a.states :=
  List.mem_of_getElem? (getElem?_states h)

theorem exists_place (hs : s ∈ a.states) : ∃ i, i < a.numStates ∧ a.stateAt i = s := by
  obtain ⟨i, hi⟩ := List.mem_iff_getElem?.mp hs
  exact ⟨i, (List.getElem?_eq_some_iff.mp hi).1, stateAt_of_getElem? hi⟩

theorem exists_idxOf? (hs : s ∈ a.states) :
    ∃ i, a.states.idxOf? s = some i ∧ i < a.numStates ∧ a.stateAt i = s := by
  obtain ⟨i, hi⟩ := Option.isSome_iff_exists.mp (List.isSome_idxOf?.mpr hs)
  obtain ⟨hlt, heq, -⟩ := List.idxOf?_eq_some_iff.mp hi
  exact ⟨i, hi, hlt, stateAt_of_getElem? (heq ▸ List.getElem?_eq_getElem hlt)⟩

namespace WellFormed

variable (h : a.WellFormed)

include h

theorem placeOf?_eq_some_iff : a.placeOf? s = some i ↔ a.states[i]? = some s :=
  lastPlace?_eq_some_iff h.nodup_states

theorem stateAt_injective (hi : i < a.numStates) (hj : j < a.numStates)
    (heq : a.stateAt i = a.stateAt j) : i = j := by
  refine (List.getElem?_inj hi h.nodup_states).mp ?_
  rw [getElem?_states hi, getElem?_states hj, heq]

end WellFormed

/-! ## Deterministic automata -/

theorem isDeterministic_iff : a.isDeterministic = true ↔ a.Deterministic := by
  simp only [isDeterministic, List.all_eq_true, decide_eq_true_eq, Prod.forall,
    Std.ExtTreeMap.mem_toList_iff_getElem?_eq_some]
  constructor
  · intro h s c
    rw [targets, row, Row.targets]
    rcases hs : a.rows[s]? with _ | row
    · simp
    · rcases hc : row[c]? with _ | ts
      · simp [hc]
      · simpa [hc] using h s row hs c ts hc
  · intro h s row hs c ts hc
    rw [← Row.targets_of_getElem? hc, ← row_of_getElem? hs]
    exact h s c

/-- It is enough that no two targets on a symbol differ. -/
theorem WellFormed.deterministic_of_unique (h : a.WellFormed)
    (hone : ∀ {s c t u}, t ∈ a.targets s c → u ∈ a.targets s c → t = u) : a.Deterministic := by
  intro s c
  have hnodup : (a.targets s c).Nodup := (h.row_fits s).nodup_targets
  have hall : ∀ t ∈ a.targets s c, ∀ u ∈ a.targets s c, t = u := fun t ht u hu => hone ht hu
  generalize a.targets s c = ts at hnodup hall ⊢
  rcases ts with _ | ⟨t, _ | ⟨u, rest⟩⟩
  · exact Nat.zero_le 1
  · exact Nat.le_refl 1
  · cases hall t (by simp) u (by simp)
    simp at hnodup

namespace Deterministic

variable (h : a.Deterministic)

include h

theorem targets_eq (ht : t ∈ a.targets s c) : a.targets s c = [t] := by
  have hle := h s c
  obtain ⟨u, hu⟩ := List.length_eq_one_iff.mp
    (Nat.le_antisymm hle (List.length_pos_of_mem ht))
  rw [hu] at ht ⊢
  rw [List.mem_singleton.mp ht]

theorem acceptsFrom_cons (ht : t ∈ a.targets s c) :
    a.AcceptsFrom s (c :: word) ↔ a.AcceptsFrom t word := by
  rw [Automaton.acceptsFrom_cons, h.targets_eq ht]
  simp

/-- A live state that is reached in one automaton has its like in every other one that accepts the
same words, as long as both are deterministic. -/
theorem exists_like (hb : b.Deterministic) {v : State} (hsame : SameWords a s b v)
    (hpath : a.Path s word t) (hlive : a.Live t) : ∃ t', b.Path v word t' ∧ SameWords a t b t' := by
  induction hpath generalizing v with
  | nil => exact ⟨v, .nil v, hsame⟩
  | cons hstep hrest ih =>
    obtain ⟨rest, hacc⟩ := hlive.of_path hrest
    obtain ⟨v', hstep', -⟩ := Automaton.acceptsFrom_cons.mp
      ((hsame (_ :: rest)).mp ((h.acceptsFrom_cons hstep).mpr hacc))
    obtain ⟨t', hpath', hsame'⟩ := ih (v := v') (fun rest' => by
      rw [← h.acceptsFrom_cons hstep, ← hb.acceptsFrom_cons hstep']
      exact hsame _) hlive
    exact ⟨t', .cons hstep' hpath', hsame'⟩

end Deterministic

end RegularSets.Automaton
