import RegularSets.Proofs.Automaton.Facts
import RegularSets.Proofs.Automaton.Run
import RegularSets.Proofs.Naming

/-!
# Automata built from values

A builder keeps three things in step: the numbers of the values, the states by number, and the targets,
which are numbers too. `Builder.Records` says how they fit to the values registered so far and to the facts
that the builder was told. A new value gets the next number and a state of which nothing is said yet
(`Records.addState`); what is said of a value goes to the state with its number (`Records.modify`). So after
any sequence of facts the builder records them all (`records_ofFacts`).

Then the automaton can be read off the facts. The `i`-th registered value is the `i`-th state and does what
the facts say of it, and a word is accepted if the transitions among the facts lead along it from the initial
value to a final one (`build_ofFacts`).
-/

namespace RegularSets

variable {α : Type} {values : List α} {facts facts' : List (Builder.Fact α)} {x y : α}

/-- The state is that of the value: it says of it what the facts do, with numbers for the other values. -/
structure Unnamed.Knows (values : List α) (facts : List (Builder.Fact α)) (x : α) (s : Unnamed) :
    Prop where
  isFinal_iff : s.isFinal = true ↔ .final x ∈ facts
  mem_targets : ∀ {c : Char} {j : Nat},
    j ∈ Row.targets s.row c ↔ ∃ y, values[j]? = some y ∧ .transition x c y ∈ facts
  fits : Row.Fits s.row (List.range values.length)

/-- Other facts may say the same of a value. -/
theorem Unnamed.Knows.congr {s : Unnamed} (h : s.Knows values facts x)
    (hfinal : .final x ∈ facts' ↔ .final x ∈ facts)
    (htransition : ∀ c y, .transition x c y ∈ facts' ↔ .transition x c y ∈ facts) :
    s.Knows values facts' x where
  isFinal_iff := by rw [hfinal, h.isFinal_iff]
  mem_targets {c j} := by simp only [htransition, h.mem_targets]
  fits := h.fits

namespace Builder

variable {b : Builder α} {scheme : Naming} {i j : Nat} {c : Char} {word : List Char}

/-- The values are registered in this order, and the builder was told these facts about them. -/
structure Records [DecidableEq α] (values : List α) (facts : List (Fact α)) (b : Builder α) : Prop where
  nodup : values.Nodup
  mentioned_mem : ∀ fact ∈ facts, ∀ x ∈ fact.mentioned, x ∈ values
  lookup_eq_some_iff : ∀ {x : α} {i : Nat}, b.ids.lookup x = some i ↔ values[i]? = some x
  numStates_eq : b.numStates = values.length
  exists_state : ∀ {i : Nat} {x : α}, values[i]? = some x →
    ∃ s, b.states[i]? = some s ∧ s.Knows values facts x

variable [DecidableEq α]

/-! ## One fact after the other -/

omit [DecidableEq α] in
theorem getElem?_concat_iff (hne : y ≠ x) :
    (values ++ [x])[i]? = some y ↔ values[i]? = some y := by
  rw [List.getElem?_append]
  split
  · rfl
  · next hi =>
    rw [List.getElem?_eq_none (Nat.le_of_not_lt hi), List.getElem?_singleton]
    split <;> simp [hne.symm]

namespace Records

theorem empty : Records ([] : List α) [] {} where
  nodup := List.nodup_nil
  mentioned_mem := nofun
  lookup_eq_some_iff := by simp
  numStates_eq := rfl
  exists_state := by simp

variable (h : Records values facts b)

include h

theorem lookup_eq_none_iff : b.ids.lookup x = none ↔ x ∉ values := by
  rw [Option.eq_none_iff_forall_ne_some, List.mem_iff_getElem?, not_exists]
  exact forall_congr' fun i => not_congr h.lookup_eq_some_iff

theorem lt_of_getElem? (hi : values[i]? = some x) : i < b.numStates :=
  h.numStates_eq ▸ (List.getElem?_eq_some_iff.mp hi).1

/-- What a state knows stays true when a new value is registered. -/
theorem knows_concat {s : Unnamed} (hx : x ∉ values) (hs : s.Knows values facts y) :
    s.Knows (values ++ [x]) facts y where
  isFinal_iff := hs.isFinal_iff
  mem_targets {c j} := by
    rw [hs.mem_targets]
    refine exists_congr fun z => and_congr_left fun hfact => ?_
    have hz : z ∈ values := h.mentioned_mem _ hfact z (by simp [Fact.mentioned])
    exact (getElem?_concat_iff (ne_of_mem_of_not_mem hz hx)).symm
  fits := hs.fits.mono fun j hj => by
    rw [List.mem_range] at hj ⊢
    exact Nat.lt_of_lt_of_le hj (by simp)

/-- Nothing was said yet of a new value. -/
theorem knows_new (hx : x ∉ values) : Unnamed.Knows (values ++ [x]) facts x {} where
  isFinal_iff := by
    have hnot : .final x ∉ facts := fun hfact =>
      hx (h.mentioned_mem _ hfact x (List.mem_singleton_self x))
    simp [hnot]
  mem_targets {c j} := by
    have hnot : ∀ y, .transition x c y ∉ facts := fun y hfact =>
      hx (h.mentioned_mem _ hfact x List.mem_cons_self)
    simp [hnot]
  fits := Row.fits_empty

/-- A value is registered once, and its number is its place among the values. -/
theorem addState (x : α) : Records (appendNew values x) facts (b.addState x).2 ∧
    (appendNew values x)[(b.addState x).1]? = some x := by
  rw [Builder.addState]
  cases hlookup : b.ids.lookup x with
  | some i =>
    have hi := h.lookup_eq_some_iff.mp hlookup
    rw [appendNew_of_mem (List.mem_of_getElem? hi)]
    exact ⟨h, hi⟩
  | none =>
    have hx := h.lookup_eq_none_iff.mp hlookup
    rw [appendNew_of_not_mem hx]
    have hnodup : (values ++ [x]).Nodup := appendNew_of_not_mem hx ▸ nodup_appendNew h.nodup
    have hlast : (values ++ [x])[b.numStates]? = some x := by
      rw [h.numStates_eq, List.getElem?_concat_length]
    have hnew : ∀ {i}, (values ++ [x])[i]? = some x ↔ i = b.numStates := fun {i} =>
      ⟨fun hi => (List.getElem?_inj (List.getElem?_eq_some_iff.mp hi).1 hnodup).mp
        (hi.trans hlast.symm), fun heq => heq ▸ hlast⟩
    refine ⟨?_, hlast⟩
    exact
      { nodup := hnodup
        mentioned_mem := fun fact hfact y hy =>
          List.mem_append_left _ (h.mentioned_mem fact hfact y hy)
        lookup_eq_some_iff := fun {y i} => by
          by_cases hyx : y = x
          · rw [hyx, List.lookup_cons_self, hnew, Option.some.injEq, eq_comm]
          · rw [List.lookup_cons, beq_false_of_ne hyx, getElem?_concat_iff hyx]
            exact h.lookup_eq_some_iff
        numStates_eq := by
          rw [List.length_append, ← h.numStates_eq]
          exact Array.size_push _
        exists_state := fun {i y} hi => by
          rw [Array.getElem?_push]
          by_cases hyx : y = x
          · subst hyx
            exact ⟨_, if_pos (hnew.mp hi), h.knows_new hx⟩
          · have hi := (getElem?_concat_iff hyx).mp hi
            obtain ⟨s, hs, hknows⟩ := h.exists_state hi
            exact ⟨s, (if_neg (Nat.ne_of_lt (h.lt_of_getElem? hi))).trans hs, h.knows_concat hx hknows⟩ }

/-- A fact about a registered value goes to its state. -/
theorem modify {f : Unnamed → Unnamed} (hi : values[i]? = some x)
    (hmentioned : ∀ fact ∈ facts', ∀ y ∈ fact.mentioned, y ∈ values)
    (hf : ∀ s : Unnamed, s.Knows values facts x → (f s).Knows values facts' x)
    (hothers : ∀ y ≠ x, ∀ s : Unnamed, s.Knows values facts y → s.Knows values facts' y) :
    Records values facts' { b with states := b.states.modify i f } where
  nodup := h.nodup
  mentioned_mem := hmentioned
  lookup_eq_some_iff := h.lookup_eq_some_iff
  numStates_eq := Array.size_modify.trans h.numStates_eq
  exists_state {j y} hj := by
    obtain ⟨s, hs, hknows⟩ := h.exists_state hj
    rw [Array.getElem?_modify]
    split
    · next heq =>
      subst heq
      cases hi.symm.trans hj
      exact ⟨f s, by rw [hs, Option.map_some], hf s hknows⟩
    · next hne =>
      refine ⟨s, hs, hothers y (fun heq => hne ?_) s hknows⟩
      subst heq
      exact (List.getElem?_inj (List.getElem?_eq_some_iff.mp hi).1 h.nodup).mp (hi.trans hj.symm)

theorem mentioned_mem_concat {fact : Fact α} (hfact : ∀ y ∈ fact.mentioned, y ∈ values) :
    ∀ other ∈ facts ++ [fact], ∀ y ∈ other.mentioned, y ∈ values := by
  intro other hother
  rcases List.mem_append.mp hother with hother | hother
  · exact h.mentioned_mem other hother
  · rw [List.mem_singleton.mp hother]
    exact hfact

/-- Mentioning a registered value says nothing of it. -/
theorem mention (hx : x ∈ values) : Records values (facts ++ [.state x]) b where
  nodup := h.nodup
  mentioned_mem := h.mentioned_mem_concat (List.forall_mem_singleton.mpr hx)
  lookup_eq_some_iff := h.lookup_eq_some_iff
  numStates_eq := h.numStates_eq
  exists_state hi := by
    obtain ⟨s, hs, hknows⟩ := h.exists_state hi
    exact ⟨s, hs, hknows.congr (by simp) (by simp)⟩

theorem markFinal (hi : values[i]? = some x) : Records values (facts ++ [.final x])
    { b with states := b.states.modify i fun s => { s with isFinal := true } } := by
  have hx : x ∈ values := List.mem_of_getElem? hi
  refine h.modify hi (h.mentioned_mem_concat (List.forall_mem_singleton.mpr hx)) (fun s hs => ?_)
    fun y hne s hs => ?_
  · exact ⟨by simp, by simp [hs.mem_targets], hs.fits⟩
  · exact hs.congr (by simp [hne]) (by simp)

theorem addTransition (hi : values[i]? = some x) (hj : values[j]? = some y) :
    Records values (facts ++ [.transition x c y])
      { b with states := b.states.modify i fun s => { s with row := Row.add s.row c j } } := by
  have hx : x ∈ values := List.mem_of_getElem? hi
  have hy : y ∈ values := List.mem_of_getElem? hj
  refine h.modify hi (h.mentioned_mem_concat ?_) (fun s hs => ?_) fun z hne s hs => ?_
  · simp [Fact.mentioned, hx, hy]
  · refine ⟨by simpa using hs.isFinal_iff, fun {d k} => ?_, hs.fits.add ?_⟩
    · have hk : values[k]? = some y ↔ k = j :=
        ⟨fun hk => (List.getElem?_inj (List.getElem?_eq_some_iff.mp hk).1 h.nodup).mp (hk.trans hj.symm),
          fun heq => heq ▸ hj⟩
      have hnew : ∀ z, Fact.transition x d z = .transition x c y ↔ d = c ∧ z = y := by simp
      simp only [Row.mem_targets_add, hs.mem_targets, List.mem_append, List.mem_singleton, hnew,
        and_or_left, exists_or]
      refine or_congr_right ⟨?_, ?_⟩
      · rintro ⟨rfl, rfl⟩
        exact ⟨y, hj, rfl, rfl⟩
      · rintro ⟨z, hz, rfl, rfl⟩
        exact ⟨rfl, hk.mp hz⟩
    · exact List.mem_range.mpr (List.getElem?_eq_some_iff.mp hj).1
  · exact hs.congr (by simp) (by simp [hne])

theorem tell (fact : Fact α) :
    Records (fact.mentioned.foldl appendNew values) (facts ++ [fact]) (b.tell fact) := by
  cases fact with
  | state x =>
    obtain ⟨hrecords, hi⟩ := h.addState x
    exact hrecords.mention (List.mem_of_getElem? hi)
  | final x =>
    obtain ⟨hrecords, hi⟩ := h.addState x
    exact hrecords.markFinal hi
  | transition x c y =>
    obtain ⟨hrecords, hi⟩ := h.addState x
    obtain ⟨hrecords, hj⟩ := hrecords.addState y
    exact hrecords.addTransition (getElem?_appendNew hi) hj

theorem tellAll (more : List (Fact α)) :
    Records ((more.flatMap Fact.mentioned).foldl appendNew values) (facts ++ more)
      (b.tellAll more) := by
  induction more generalizing values facts b with
  | nil => simpa [Builder.tellAll] using h
  | cons fact more ih =>
    rw [List.flatMap_cons, List.foldl_append, List.append_cons]
    exact ih (h.tell fact)

end Records

/-- The builder that starts with a value and is told the facts. -/
def ofFacts (initial : α) (facts : List (Fact α)) : Builder α :=
  (start initial).tellAll facts

theorem records_ofFacts (initial : α) (facts : List (Fact α)) :
    Records (registered initial facts) facts (ofFacts initial facts) := by
  have hstart : Records [initial] [] (start initial) := (Records.empty.addState initial).1
  have hvalues : registered initial facts =
      (facts.flatMap Fact.mentioned).foldl appendNew [initial] := by
    rw [← registered_nil, ← registered_append, List.nil_append]
  exact hvalues ▸ hstart.tellAll facts

theorem tellAll_append : b.tellAll (facts ++ facts') = (b.tellAll facts).tellAll facts' :=
  List.foldl_append

theorem tellAll_map_state {xs : List α} : b.tellAll (xs.map .state) = xs.foldl mention b :=
  List.foldl_map

/-- Telling what each value does is marking it and adding its transitions, value by value. -/
theorem tellAll_flatMap_describe {final : α → Bool} {out : α → List (Char × α)} {xs : List α} :
    b.tellAll (xs.flatMap (describe final out)) =
      xs.foldl (fun b x => (out x).foldl (fun b e => b.addTransition x e.1 e.2)
        (if final x then b.markFinal x else b)) b := by
  rw [tellAll, List.foldl_flatMap]
  refine congrArg (List.foldl · b xs) (funext fun b => funext fun x => ?_)
  rw [describe, List.foldl_append, List.foldl_map]
  split <;> rfl

/-! ## The automaton -/

section

variable {t : State}

omit [DecidableEq α] in
/-- The final states by number, under their names, are the accepting states. -/
theorem mem_accepting_build : t ∈ (b.build scheme).accepting ↔
    ∃ i s, b.states[i]? = some s ∧ s.isFinal = true ∧ scheme.name i = t := by
  have hentry : ∀ e : Unnamed × State, e ∈ b.states.toList.zip (scheme.names b.numStates) ↔
      ∃ i, b.states[i]? = some e.1 ∧ scheme.name i = e.2 := by
    intro e
    simp only [List.mem_iff_getElem?, List.getElem?_zip_eq_some, Array.getElem?_toList]
    refine exists_congr fun i => and_congr_right fun hs => ?_
    have hlt : i < b.numStates := (Array.getElem?_eq_some_iff.mp hs).1
    rw [Naming.getElem?_names hlt, Option.some.injEq]
  simp only [build, List.mem_map, List.mem_filter, hentry]
  constructor
  · rintro ⟨e, ⟨⟨i, hs, hname⟩, hfinal⟩, rfl⟩
    exact ⟨i, e.1, hs, hfinal, hname⟩
  · rintro ⟨i, s, hs, hfinal, rfl⟩
    exact ⟨(s, scheme.name i), ⟨⟨i, hs, rfl⟩, hfinal⟩, rfl⟩

omit [DecidableEq α] in
theorem nodup_accepting_build : (b.build scheme).accepting.Nodup := by
  refine List.Nodup.sublist (List.filter_sublist.map Prod.snd) ?_
  rw [List.map_snd_zip (by simp [numStates])]
  exact Naming.nodup_names _ _

omit [DecidableEq α] in
theorem mem_rows_build : t ∈ (b.build scheme).rows ↔ t ∈ (b.build scheme).states := by
  have hkeys : ((b.build scheme).states.zip (b.states.toList.map fun s =>
      Row.rename (fun j => (scheme.names b.numStates).getD j "") s.row)).map Prod.fst =
        (b.build scheme).states :=
    List.map_fst_zip (by simp [build, numStates])
  refine Std.ExtTreeMap.mem_ofList.trans ?_
  rw [List.contains_iff_mem]
  exact iff_of_eq (congrArg (t ∈ ·) hkeys)

end

namespace Records

variable {s : Unnamed} {t : State} (h : Records values facts b)

include h

theorem states_build : (b.build scheme).states = scheme.names values.length :=
  congrArg scheme.names h.numStates_eq

theorem getElem?_states_build (hi : values[i]? = some x) :
    (b.build scheme).states[i]? = some (scheme.name i) := by
  rw [h.states_build, Naming.getElem?_names (List.getElem?_eq_some_iff.mp hi).1]

theorem name_mem_states_build (hi : values[i]? = some x) :
    scheme.name i ∈ (b.build scheme).states :=
  List.mem_of_getElem? (h.getElem?_states_build hi)

theorem exists_of_mem_states_build (ht : t ∈ (b.build scheme).states) :
    ∃ i x, values[i]? = some x ∧ scheme.name i = t := by
  rw [h.states_build, Naming.names, List.mem_map] at ht
  obtain ⟨i, hi, heq⟩ := ht
  exact ⟨i, _, List.getElem?_eq_getElem (List.mem_range.mp hi), heq⟩

theorem initial_build (hx : values[0]? = some x) :
    (b.build scheme).initial = some (scheme.name 0) := by
  have hhead : (b.build scheme).initial = (b.build scheme).states.head? := rfl
  rw [hhead, List.head?_eq_getElem?, h.getElem?_states_build hx]

theorem name_mem_accepting_build (hi : values[i]? = some x) :
    scheme.name i ∈ (b.build scheme).accepting ↔ .final x ∈ facts := by
  obtain ⟨s, hs, hknows⟩ := h.exists_state hi
  rw [mem_accepting_build, ← hknows.isFinal_iff]
  constructor
  · rintro ⟨k, s', hs', hfinal, heq⟩
    cases Naming.name_injective heq
    cases hs.symm.trans hs'
    exact hfinal
  · exact fun hfinal => ⟨i, s, hs, hfinal, rfl⟩

theorem row_build (hi : values[i]? = some x) (hs : b.states[i]? = some s) :
    (b.build scheme).row (scheme.name i) =
      Row.rename (fun j => (scheme.names b.numStates).getD j "") s.row := by
  refine Automaton.row_of_getElem? (Automaton.getElem?_ofList_zip (Naming.nodup_names _ _) ?_
    (Naming.getElem?_names (h.lt_of_getElem? hi)) ?_)
  · rw [Naming.length_names, List.length_map, Array.length_toList, numStates]
  · rw [List.getElem?_map, Array.getElem?_toList, hs, Option.map_some]

theorem mem_targets_build (hi : values[i]? = some x) :
    t ∈ (b.build scheme).targets (scheme.name i) c ↔
      ∃ j y, values[j]? = some y ∧ .transition x c y ∈ facts ∧ scheme.name j = t := by
  obtain ⟨s, hs, hknows⟩ := h.exists_state hi
  have hname : ∀ {j y}, values[j]? = some y →
      (scheme.names b.numStates).getD j "" = scheme.name j := fun hj =>
    Naming.getD_names (h.lt_of_getElem? hj)
  rw [Automaton.targets, h.row_build hi hs, Row.targets_rename, List.mem_map]
  constructor
  · rintro ⟨j, hj, rfl⟩
    obtain ⟨y, hy, hfact⟩ := hknows.mem_targets.mp hj
    exact ⟨j, y, hy, hfact, (hname hy).symm⟩
  · rintro ⟨j, y, hy, hfact, rfl⟩
    exact ⟨j, hknows.mem_targets.mpr ⟨y, hy, hfact⟩, hname hy⟩

theorem name_mem_targets_build (hi : values[i]? = some x) (hj : values[j]? = some y) :
    scheme.name j ∈ (b.build scheme).targets (scheme.name i) c ↔ .transition x c y ∈ facts := by
  rw [h.mem_targets_build hi]
  constructor
  · rintro ⟨k, z, hk, hfact, heq⟩
    cases Naming.name_injective heq
    cases hk.symm.trans hj
    exact hfact
  · exact fun hfact => ⟨j, y, hj, hfact, rfl⟩

/-! ## What the automaton does -/

theorem wellFormed_build : (b.build scheme).WellFormed := by
  refine .of_fits ?_ (fun t => mem_rows_build) (fun t ht => ?_) nodup_accepting_build (fun t ht => ?_)
    (fun t ht => List.mem_of_mem_head? ht) (fun t ht => List.mem_of_mem_head? ht)
  · rw [h.states_build]
    exact Naming.nodup_names _ _
  · obtain ⟨i, x, hi, rfl⟩ := h.exists_of_mem_states_build ht
    obtain ⟨s, hs, hknows⟩ := h.exists_state hi
    have hname : ∀ j ∈ List.range values.length,
        (scheme.names b.numStates).getD j "" = scheme.name j := fun j hj =>
      Naming.getD_names (h.numStates_eq ▸ List.mem_range.mp hj)
    have hnames : (List.range values.length).map (fun j => (scheme.names b.numStates).getD j "") =
        scheme.names values.length := List.map_congr_left hname
    rw [h.row_build hi hs, h.states_build, ← hnames]
    refine hknows.fits.rename fun j hj k hk heq => ?_
    rw [hname j hj, hname k hk] at heq
    exact Naming.name_injective heq
  · obtain ⟨i, s, hs, -, rfl⟩ := mem_accepting_build.mp ht
    have hlt : i < values.length := h.numStates_eq ▸ (Array.getElem?_eq_some_iff.mp hs).1
    exact h.name_mem_states_build (List.getElem?_eq_getElem hlt)

/-- One transition for each symbol at most makes a deterministic automaton. -/
theorem deterministic_build
    (hone : ∀ {x y z : α} {c : Char}, .transition x c y ∈ facts → .transition x c z ∈ facts → y = z) :
    (b.build scheme).Deterministic := by
  refine h.wellFormed_build.deterministic_of_unique fun {s c t u} ht hu => ?_
  obtain ⟨i, x, hi, rfl⟩ :=
    h.exists_of_mem_states_build (h.wellFormed_build.mem_of_source ht)
  obtain ⟨j, y, hj, hy, rfl⟩ := (h.mem_targets_build hi).mp ht
  obtain ⟨k, z, hk, hz, rfl⟩ := (h.mem_targets_build hi).mp hu
  cases hone hy hz
  rw [(List.getElem?_inj (List.getElem?_eq_some_iff.mp hj).1 h.nodup).mp (hj.trans hk.symm)]

/-- From the state of a value the automaton accepts the words along which the facts lead to a final value. -/
theorem acceptsFrom_build (hi : values[i]? = some x) :
    (b.build scheme).AcceptsFrom (scheme.name i) word ↔
      ∃ y, Leads facts x word y ∧ .final y ∈ facts := by
  induction word generalizing i x with
  | nil =>
    rw [Automaton.acceptsFrom_nil, h.name_mem_accepting_build hi, exists_leads_nil_iff]
  | cons c word ih =>
    rw [Automaton.acceptsFrom_cons, exists_leads_cons_iff]
    constructor
    · rintro ⟨t, ht, hacc⟩
      obtain ⟨j, y, hj, hstep, rfl⟩ := (h.mem_targets_build hi).mp ht
      exact ⟨y, hstep, (ih hj).mp hacc⟩
    · rintro ⟨y, hstep, hacc⟩
      obtain ⟨j, hj⟩ := List.mem_iff_getElem?.mp
        (h.mentioned_mem _ hstep y (by simp [Fact.mentioned]))
      exact ⟨_, (h.mem_targets_build hi).mpr ⟨j, y, hj, hstep, rfl⟩, (ih hj).mpr hacc⟩

theorem accepts_build (hx : values[0]? = some x) :
    (b.build scheme).Accepts word ↔ ∃ y, Leads facts x word y ∧ .final y ∈ facts := by
  rw [Automaton.accepts_iff, h.initial_build hx]
  simp only [Option.some.injEq, exists_eq_left']
  exact h.acceptsFrom_build hx

end Records

/-! ## Automata built from facts -/

section OfFacts

variable {initial : α} {scheme' : Naming}

theorem acceptsWord_build_ofFacts : ((ofFacts initial facts).build scheme).acceptsWord word = true ↔
    ∃ x, Leads facts initial word x ∧ .final x ∈ facts := by
  rw [Automaton.acceptsWord_iff]
  exact (records_ofFacts initial facts).accepts_build getElem?_registered_zero

theorem acceptsWord_build_ofFacts_congr (h : ∀ fact, fact ∈ facts ↔ fact ∈ facts') :
    ((ofFacts initial facts).build scheme).acceptsWord word =
      ((ofFacts initial facts').build scheme').acceptsWord word := by
  rw [Bool.eq_iff_iff, acceptsWord_build_ofFacts, acceptsWord_build_ofFacts]
  refine exists_congr fun x => and_congr ?_ (h _)
  exact ⟨fun hleads => hleads.mono fun fact => (h fact).mp,
    fun hleads => hleads.mono fun fact => (h fact).mpr⟩

/-- **Building.** A value has the number of its place among the registered values, and the initial value comes
first. The built automaton has one state for each of them, named by the number. States accept and lead to
each other as the facts say of their values, a word is accepted if the facts lead along it from the initial
value to a final one, and whoever tells the same facts in another order, or more than once, builds an
automaton for the same words. -/
theorem build_ofFacts (initial : α) (facts : List (Fact α)) (scheme : Naming) :
    (∀ x i, (ofFacts initial facts).ids.lookup x = some i ↔ (registered initial facts)[i]? = some x) ∧
      ((ofFacts initial facts).build scheme).states.Nodup ∧
      ((ofFacts initial facts).build scheme).states =
        scheme.names (registered initial facts).length ∧
      ((ofFacts initial facts).build scheme).initial = some (scheme.name 0) ∧
      (registered initial facts)[0]? = some initial ∧
      (∀ i x, (registered initial facts)[i]? = some x →
        (scheme.name i ∈ ((ofFacts initial facts).build scheme).accepting ↔ .final x ∈ facts) ∧
        ∀ c j y, (registered initial facts)[j]? = some y →
          (scheme.name j ∈ ((ofFacts initial facts).build scheme).targets (scheme.name i) c ↔
            .transition x c y ∈ facts)) ∧
      (∀ word, ((ofFacts initial facts).build scheme).acceptsWord word = true ↔
        ∃ x, Leads facts initial word x ∧ .final x ∈ facts) ∧
      ∀ facts' scheme', (∀ fact, fact ∈ facts ↔ fact ∈ facts') → ∀ word,
        ((ofFacts initial facts').build scheme').acceptsWord word =
          ((ofFacts initial facts).build scheme).acceptsWord word := by
  have hrecords := records_ofFacts initial facts
  exact ⟨fun _ _ => hrecords.lookup_eq_some_iff, hrecords.wellFormed_build.nodup_states,
    hrecords.states_build, hrecords.initial_build getElem?_registered_zero,
    getElem?_registered_zero,
    fun i x hi => ⟨hrecords.name_mem_accepting_build hi,
      fun c j y hj => hrecords.name_mem_targets_build hi hj⟩,
    fun word => acceptsWord_build_ofFacts, fun facts' scheme' h word =>
      acceptsWord_build_ofFacts_congr fun fact => (h fact).symm⟩

/-- A value is final before anything leads to it, and a transition is told twice; from back to front the
values come in another order. -/
def roundTrip : List (Fact Nat) :=
  [.final 5, .transition 3 'x' 7, .transition 7 'y' 3, .transition 3 'x' 5, .transition 3 'x' 7]

theorem build_ofFacts_roundTrip :
    registered 7 roundTrip = [7, 5, 3] ∧
      (ofFacts 7 roundTrip).ids.lookup 3 = some 2 ∧
      ((ofFacts 7 roundTrip).build .alternate).states = ["A_", "B_", "C_"] ∧
      ("B_" ∈ ((ofFacts 7 roundTrip).build .alternate).targets "C_" 'x' ↔
        .transition 3 'x' 5 ∈ roundTrip) ∧
      (((ofFacts 7 roundTrip).build .alternate).acceptsWord ['y', 'x', 'y', 'x'] = true ↔
        ∃ x, Leads roundTrip 7 ['y', 'x', 'y', 'x'] x ∧ .final x ∈ roundTrip) ∧
      (∀ fact, fact ∈ roundTrip ↔ fact ∈ roundTrip.reverse) ∧
      registered 7 roundTrip.reverse = [7, 3, 5] ∧
      ∀ word, ((ofFacts 7 roundTrip.reverse).build .canonical).acceptsWord word =
        ((ofFacts 7 roundTrip).build .alternate).acceptsWord word := by
  obtain ⟨hids, -, -, -, -, hvalue, hword, hagain⟩ := build_ofFacts 7 roundTrip .alternate
  have hreverse : ∀ fact, fact ∈ roundTrip ↔ fact ∈ roundTrip.reverse := fun _ =>
    List.mem_reverse.symm
  exact ⟨by decide, (hids 3 2).mpr (by decide), by decide, (hvalue 2 3 (by decide)).2 'x' 1 5 (by decide),
    hword _, hreverse, by decide, hagain _ .canonical hreverse⟩

end OfFacts

end Builder

end RegularSets
