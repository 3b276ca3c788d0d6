import RegularSets.Proofs.Automaton.Run
import RegularSets.Proofs.Naming

/-!
# Isomorphisms and renaming

An isomorphism carries paths over, hence the accepted words and everything that is said in terms of
paths. A renaming that is injective on the states of a well-formed automaton is an isomorphism onto
the renamed automaton (`mapStates`), and the naming schemes give injective renamings. Such a renaming does
more than an isomorphism asks for: it keeps the order of the states, of the accepting states and of the
targets, and it carries the current state over (`Renamed`). States that have the names of the scheme
already, in order, keep them (`rename_eq_self`).
-/

namespace RegularSets.Automaton

/-- Every automaton corresponds to itself. -/
def Isomorphism.refl (a : Automaton) : Isomorphism a a where
  map := id
  injective _ _ heq := heq
  surjective ht := ⟨_, ht, rfl⟩
  map_mem hs := hs
  map_initial := Option.map_id'.symm
  accepting_iff _ := Iff.rfl
  map_targets _ := (List.map_id _).symm

/-! ## What isomorphisms preserve -/

namespace Isomorphism

variable {a b : Automaton} (iso : Isomorphism a b) {s t : State} {word : List Char}

include iso

theorem path_iff (h : a.WellFormed) (hs : s ∈ a.states) :
    b.Path (iso.map s) word t ↔ ∃ u, a.Path s word u ∧ iso.map u = t := by
  induction word generalizing s with
  | nil => simp
  | cons c word ih =>
    simp only [path_cons_iff, iso.map_targets hs, List.mem_map]
    constructor
    · rintro ⟨_, ⟨v, hv, rfl⟩, hpath⟩
      obtain ⟨u, hvu, rfl⟩ := (ih (h.mem_of_target hv)).mp hpath
      exact ⟨u, ⟨v, hv, hvu⟩, rfl⟩
    · rintro ⟨u, ⟨v, hv, hvu⟩, rfl⟩
      exact ⟨_, ⟨v, hv, rfl⟩, (ih (h.mem_of_target hv)).mpr ⟨u, hvu, rfl⟩⟩

theorem sameWords (h : a.WellFormed) (hs : s ∈ a.states) :
    SameWords b (iso.map s) a s := by
  intro word
  simp only [AcceptsFrom, iso.path_iff h hs]
  constructor
  · rintro ⟨_, ⟨u, hu, rfl⟩, hacc⟩
    exact ⟨u, hu, (iso.accepting_iff (h.mem_of_path hs hu)).mp hacc⟩
  · rintro ⟨u, hu, hacc⟩
    exact ⟨_, ⟨u, hu, rfl⟩, (iso.accepting_iff (h.mem_of_path hs hu)).mpr hacc⟩

theorem accepts_iff (h : a.WellFormed) : b.Accepts word ↔ a.Accepts word := by
  simp only [Automaton.accepts_iff, iso.map_initial, Option.map_eq_some_iff]
  constructor
  · rintro ⟨_, ⟨s, hs, rfl⟩, hacc⟩
    exact ⟨s, hs, (iso.sameWords h (h.initial_mem hs) word).mp hacc⟩
  · rintro ⟨s, hs, hacc⟩
    exact ⟨_, ⟨s, hs, rfl⟩, (iso.sameWords h (h.initial_mem hs) word).mpr hacc⟩

theorem live_iff (h : a.WellFormed) (hs : s ∈ a.states) : b.Live (iso.map s) ↔ a.Live s :=
  (iso.sameWords h hs).live_iff

theorem reachable_map (h : a.WellFormed) (hs : a.Reachable s) : b.Reachable (iso.map s) := by
  obtain ⟨i, word, hi, hpath⟩ := hs
  exact ⟨iso.map i, word, by rw [iso.map_initial, hi, Option.map_some],
    (iso.path_iff h (h.initial_mem hi)).mpr ⟨s, hpath, rfl⟩⟩

theorem deterministic (hb : b.WellFormed) (hdet : a.Deterministic) : b.Deterministic := by
  intro t c
  by_cases ht : t ∈ b.states
  · obtain ⟨s, hs, rfl⟩ := iso.surjective ht
    rw [iso.map_targets hs, List.length_map]
    exact hdet s c
  · simp [hb.targets_of_not_mem ht]

end Isomorphism

/-! ## Renaming by a function -/

section MapStates

variable {a : Automaton} {f : State → State} {s t : State} {c : Char}

/-- Different states have different names. -/
def InjectiveOn (f : State → State) (a : Automaton) : Prop :=
  ∀ s ∈ a.states, ∀ t ∈ a.states, f s = f t → s = t

theorem mem_rows_mapStates (h : a.WellFormed) :
    t ∈ (a.mapStates f).rows ↔ t ∈ a.states.map f := by
  simp only [mapStates, Std.ExtTreeMap.mem_ofList, List.map_map, List.contains_iff_mem,
    List.mem_map, Function.comp_apply, Prod.exists, Std.ExtTreeMap.mem_toList_iff_getElem?_eq_some]
  constructor
  · rintro ⟨s, row, hs, rfl⟩
    refine ⟨s, (h.mem_rows_iff s).mp ?_, rfl⟩
    rw [Std.ExtTreeMap.mem_iff_isSome_getElem?, hs]
    rfl
  · rintro ⟨s, hs, rfl⟩
    exact ⟨s, _, getElem?_rows ((h.mem_rows_iff s).mpr hs), rfl⟩

theorem row_mapStates (h : a.WellFormed) (hf : InjectiveOn f a) (hs : s ∈ a.states) :
    (a.mapStates f).row (f s) = Row.rename f (a.row s) := by
  refine row_of_getElem? (Std.ExtTreeMap.getElem?_ofList_of_mem Std.ReflCmp.compare_self ?_ ?_)
  · refine List.pairwise_map.mpr (Std.ExtTreeMap.distinct_keys_toList.imp_of_mem ?_)
    intro ⟨s, row⟩ ⟨t, row'⟩ hs ht hne heq
    have hmem : ∀ {s row}, (s, row) ∈ a.rows.toList → s ∈ a.states := by
      intro s row hs
      rw [← h.mem_rows_iff, Std.ExtTreeMap.mem_iff_isSome_getElem?,
        Std.ExtTreeMap.mem_toList_iff_getElem?_eq_some.mp hs]
      rfl
    refine hne ?_
    rw [hf s (hmem hs) t (hmem ht) (Std.LawfulEqCmp.eq_of_compare heq)]
    exact Std.ReflCmp.compare_self
  · refine List.mem_map.mpr ⟨(s, a.row s), ?_, rfl⟩
    exact Std.ExtTreeMap.mem_toList_iff_getElem?_eq_some.mpr
      (getElem?_rows ((h.mem_rows_iff s).mpr hs))

theorem targets_mapStates (h : a.WellFormed) (hf : InjectiveOn f a) (hs : s ∈ a.states) :
    (a.mapStates f).targets (f s) c = (a.targets s c).map f := by
  rw [targets, row_mapStates h hf hs, Row.targets_rename, targets]

theorem wellFormed_mapStates (h : a.WellFormed) (hf : InjectiveOn f a) :
    (a.mapStates f).WellFormed := by
  refine .of_fits (List.Nodup.map_on hf h.nodup_states) (fun t => mem_rows_mapStates h)
    (fun t ht => ?_) (List.Nodup.map_on (fun s hs t ht => ?_) h.nodup_accepting) (fun t ht => ?_)
    (fun t ht => ?_) (fun t ht => ?_)
  · obtain ⟨s, hs, rfl⟩ := List.mem_map.mp ht
    rw [row_mapStates h hf hs]
    exact (h.row_fits s).rename hf
  · exact hf s (h.accepting_mem hs) t (h.accepting_mem ht)
  · obtain ⟨s, hs, rfl⟩ := List.mem_map.mp ht
    exact List.mem_map_of_mem (h.accepting_mem hs)
  · obtain ⟨s, hs, rfl⟩ := Option.map_eq_some_iff.mp ht
    exact List.mem_map_of_mem (h.initial_mem hs)
  · obtain ⟨s, hs, rfl⟩ := Option.map_eq_some_iff.mp ht
    exact List.mem_map_of_mem (h.current_mem hs)

/-- `b` is `a` with every state called by what `f` gives for it, wherever it stands: in the list of the
states, in the roles and in the ordered lists of targets. -/
structure Renamed (f : State → State) (a b : Automaton) : Prop where
  injective : InjectiveOn f a
  states : b.states = a.states.map f
  initial : b.initial = a.initial.map f
  accepting : b.accepting = a.accepting.map f
  current : b.current = a.current.map f
  targets : ∀ s ∈ a.states, ∀ c, b.targets (f s) c = (a.targets s c).map f

theorem renamed_mapStates (h : a.WellFormed) (hf : InjectiveOn f a) :
    Renamed f a (a.mapStates f) where
  injective := hf
  states := rfl
  initial := rfl
  accepting := rfl
  current := rfl
  targets _ hs _ := targets_mapStates h hf hs

/-- Nothing changes if every state is called by its own name. -/
theorem mapStates_eq_self (h : a.WellFormed) (hf : ∀ s ∈ a.states, f s = s) : a.mapStates f = a := by
  have hinjective : InjectiveOn f a := fun s hs t ht heq => by rwa [hf s hs, hf t ht] at heq
  have hrenamed := renamed_mapStates h hinjective
  have hw := wellFormed_mapStates h hinjective
  have hlist : ∀ l : List State, (∀ s ∈ l, s ∈ a.states) → l.map f = l := fun l hl =>
    (List.map_congr_left fun s hs => hf s (hl s hs)).trans (List.map_id l)
  have hrole : ∀ role : Option State, (∀ s, role = some s → s ∈ a.states) → role.map f = role := by
    intro role hmem
    cases role with
    | none => rfl
    | some s => exact congrArg some (hf s (hmem s rfl))
  have hstates : (a.mapStates f).states = a.states := hrenamed.states.trans (hlist _ fun _ => id)
  refine hw.ext h hstates (fun s c => ?_) (hrenamed.initial.trans (hrole _ fun _ => h.initial_mem))
    (hrenamed.accepting.trans (hlist _ fun _ => h.accepting_mem))
    (hrenamed.current.trans (hrole _ fun _ => h.current_mem))
  by_cases hs : s ∈ a.states
  · have htargets := hrenamed.targets s hs c
    rwa [hf s hs, hlist _ fun _ => h.mem_of_target] at htargets
  · rw [hw.targets_of_not_mem (hstates ▸ hs), h.targets_of_not_mem hs]

/-- Renaming without a clash is an isomorphism. -/
def Isomorphism.ofInjective (h : a.WellFormed) (hf : InjectiveOn f a) :
    Isomorphism a (a.mapStates f) where
  map := f
  injective hs ht := hf _ hs _ ht
  surjective ht := List.mem_map.mp ht
  map_mem hs := List.mem_map_of_mem hs
  map_initial := rfl
  accepting_iff hs := by
    refine ⟨fun hacc => ?_, List.mem_map_of_mem⟩
    obtain ⟨t, ht, heq⟩ := List.mem_map.mp hacc
    exact hf _ (h.accepting_mem ht) _ hs heq ▸ ht
  map_targets hs := targets_mapStates h hf hs

end MapStates

/-! ## Renaming by a scheme -/

section Rename

variable {a : Automaton} {scheme : Naming} {i : Nat} {s : State}

/-- The new name of a state. -/
def newName (a : Automaton) (scheme : Naming) (s : State) : State :=
  (a.newNames scheme)[s]?.getD s

theorem rename_eq : a.rename scheme = a.mapStates (a.newName scheme) :=
  rfl

/-- The state at a place gets the name for that place. -/
theorem newName_of_getElem? (h : a.WellFormed) (hi : a.states[i]? = some s) :
    a.newName scheme s = scheme.name i := by
  have hlt := (List.getElem?_eq_some_iff.mp hi).1
  rw [newName, newNames, getElem?_ofList_zip h.nodup_states (Naming.length_names _ _).symm hi
    (Naming.getElem?_names hlt)]
  rfl

theorem injectiveOn_newName (h : a.WellFormed) : InjectiveOn (a.newName scheme) a := by
  intro s hs t ht heq
  obtain ⟨i, hi⟩ := List.mem_iff_getElem?.mp hs
  obtain ⟨j, hj⟩ := List.mem_iff_getElem?.mp ht
  rw [newName_of_getElem? h hi, newName_of_getElem? h hj] at heq
  rw [Naming.name_injective heq, hj] at hi
  exact (Option.some.inj hi).symm

theorem wellFormed_rename (h : a.WellFormed) : (a.rename scheme).WellFormed := by
  rw [rename_eq]
  exact wellFormed_mapStates h (injectiveOn_newName h)

/-- Renaming is an isomorphism, whichever old names the new names repeat. -/
def Isomorphism.rename (h : a.WellFormed) (scheme : Naming) : Isomorphism a (a.rename scheme) :=
  .ofInjective h (injectiveOn_newName h)

theorem exists_name_of_mem_rename (h : a.WellFormed) (hs : s ∈ (a.rename scheme).states) :
    ∃ i, s = scheme.name i := by
  rw [rename_eq] at hs
  obtain ⟨t, ht, rfl⟩ := List.mem_map.mp hs
  obtain ⟨i, hi⟩ := List.mem_iff_getElem?.mp ht
  exact ⟨i, newName_of_getElem? h hi⟩

theorem states_rename (h : a.WellFormed) (scheme : Naming) :
    (a.rename scheme).states = scheme.names a.numStates := by
  have hstates : (a.rename scheme).states = a.states.map (a.newName scheme) := rfl
  refine List.ext_getElem? fun i => ?_
  rw [hstates, List.getElem?_map]
  cases hi : a.states[i]? with
  | none =>
    have hle : a.numStates ≤ i := List.getElem?_eq_none_iff.mp hi
    rw [List.getElem?_eq_none (by rwa [Naming.length_names])]
    rfl
  | some s =>
    have hlt : i < a.numStates := (List.getElem?_eq_some_iff.mp hi).1
    rw [Option.map_some, newName_of_getElem? h hi, Naming.getElem?_names hlt]

/-- States that are called by the names of the scheme in order keep their names. -/
theorem rename_eq_self (h : a.WellFormed) (hnames : a.states = scheme.names a.numStates) :
    a.rename scheme = a := by
  refine mapStates_eq_self h fun s hs => ?_
  obtain ⟨i, hi⟩ := List.mem_iff_getElem?.mp hs
  have hlt : i < a.numStates := (List.getElem?_eq_some_iff.mp hi).1
  refine (newName_of_getElem? h hi).trans ?_
  rw [hnames, Naming.getElem?_names hlt] at hi
  exact Option.some.inj hi

end Rename

end RegularSets.Automaton
