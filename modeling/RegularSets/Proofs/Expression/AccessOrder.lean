import RegularSets.Proofs.Automaton.AccessOrder
import RegularSets.Proofs.Expression.Follow

/-!
# The states of the automaton of an expression

The compositions are explored breadth first, with symbols in increasing order, and the builder hears of
them in the order in which they are discovered (`records_compositions`). So the states are listed with the
sooner ones first (`pairwise_sooner_states`), that is in the order of their least access words.

No state is useless. A composition is what a walk found from some visits, and from every visit the walk
can go on to the end (`exists_accepts`).
-/

namespace RegularSets

open Visit

namespace ExpressionTree

variable {t : ExpressionTree} {c c' : Composition} {before after : List Composition}
  {s : State} {symbol : Char}

/-- The state of a composition. -/
def stateOf (t : ExpressionTree) (c : Composition) : State :=
  Naming.canonical.name ((t.builder.ids.lookup c).getD 0)

theorem stateOf_of_getElem? {values : List Composition} {facts : List (Builder.Fact Composition)}
    {i : Nat} (h : Builder.Records values facts t.builder) (hi : values[i]? = some c) :
    t.stateOf c = Naming.canonical.name i := by
  rw [stateOf, h.lookup_eq_some_iff.mpr hi, Option.getD_some]

theorem initial_toAutomaton (t : ExpressionTree) :
    t.toAutomaton.initial = some (t.stateOf t.root.initialComposition) := by
  rw [stateOf_of_getElem? t.records_builder Builder.getElem?_registered_zero]
  exact t.records_builder.initial_build Builder.getElem?_registered_zero

theorem initial_eq_stateAt (t : ExpressionTree) :
    t.toAutomaton.initial = some (t.toAutomaton.stateAt 0) := by
  have hfirst : t.toAutomaton.states[0]? = some (t.stateOf t.root.initialComposition) :=
    List.head?_eq_getElem?.symm.trans t.initial_toAutomaton
  rw [initial_toAutomaton, Automaton.stateAt_of_getElem? hfirst]

/-- The states have the canonical names, one after the other. -/
theorem states_eq_names (t : ExpressionTree) :
    t.toAutomaton.states = Naming.canonical.names t.toAutomaton.numStates := by
  have hstates : t.toAutomaton.states = Naming.canonical.names t.builder.numStates := rfl
  rw [Automaton.numStates, hstates, Naming.length_names]

/-- Symbols lead on in increasing order. -/
theorem pairwise_successors (t : ExpressionTree) (c : Composition) :
    (c.successors t.root t.leaves.toArray).Pairwise fun e e' => e.1 < e'.1 :=
  List.pairwise_map.mpr ((pairwise_ascending _).imp compareOfLessAndEq_eq_lt.mp)

/-- What the symbols lead to is listed by increasing symbols. -/
theorem exists_symbol_of_nextOf (h : t.nextOf c = before ++ c' :: after) :
    ∃ symbol, (symbol, c') ∈ c.successors t.root t.leaves.toArray ∧
      ∀ d z, (d, z) ∈ c.successors t.root t.leaves.toArray → z ∉ before → z ≠ c' → symbol < d := by
  obtain ⟨front, back, hsuccessors, rfl, hback⟩ := List.map_eq_append_iff.mp h
  obtain ⟨⟨symbol, c'⟩, back, rfl, rfl, rfl⟩ := List.map_eq_cons_iff.mp hback
  refine ⟨symbol, by simp [hsuccessors], fun d z hd hbefore hne => ?_⟩
  have hpairwise := t.pairwise_successors c
  rw [hsuccessors] at hd hpairwise
  rcases List.mem_append.mp hd with hfront | hbehind
  · exact absurd (List.mem_map.mpr ⟨_, hfront, rfl⟩) hbefore
  rcases List.mem_cons.mp hbehind with heq | hback
  · exact absurd (congrArg Prod.snd heq) hne
  · exact (List.pairwise_cons.mp (List.pairwise_append.mp hpairwise).2.1).1 _ hback

variable (ht : t.root.Numbered 0 1)

include ht

/-! ## The order of the states -/

/-- The compositions are registered in the order in which they are found. -/
theorem records_compositions : Builder.Records t.compositions t.facts t.builder := by
  have hregistered : Builder.registered t.root.initialComposition t.facts = t.compositions :=
    Builder.registered_describe_explore (initialComposition_mem_space ht)
      (fun _ _ _ => mem_space_of_mem_nextOf ht) t.card_space_le
  exact hregistered ▸ t.records_builder

theorem states_eq_map : t.toAutomaton.states = t.compositions.map t.stateOf := by
  have hrecords := records_compositions ht
  refine hrecords.states_build.trans (List.ext_getElem? fun i => ?_)
  rw [List.getElem?_map]
  cases hi : t.compositions[i]? with
  | none =>
    rw [List.getElem?_eq_none, Option.map_none]
    exact (Naming.length_names _ _).symm ▸ List.getElem?_eq_none_iff.mp hi
  | some c =>
    rw [Naming.getElem?_names (List.getElem?_eq_some_iff.mp hi).1, Option.map_some,
      stateOf_of_getElem? hrecords hi]

theorem mem_targets_stateOf (hc : c ∈ t.compositions) :
    s ∈ t.toAutomaton.targets (t.stateOf c) symbol ↔
      ∃ c', (symbol, c') ∈ c.successors t.root t.leaves.toArray ∧ s = t.stateOf c' := by
  have hrecords := records_compositions ht
  obtain ⟨i, hi⟩ := List.mem_iff_getElem?.mp hc
  rw [stateOf_of_getElem? hrecords hi, toAutomaton, hrecords.mem_targets_build hi]
  simp only [transition_mem_facts, and_iff_right hc]
  constructor
  · rintro ⟨j, c', hj, hsymbol, rfl⟩
    exact ⟨c', hsymbol, (stateOf_of_getElem? hrecords hj).symm⟩
  · rintro ⟨c', hsymbol, rfl⟩
    obtain ⟨j, hj⟩ := List.mem_iff_getElem?.mp (mem_compositions_of_mem_successors ht hc hsymbol)
    exact ⟨j, c', hj, hsymbol, (stateOf_of_getElem? hrecords hj).symm⟩

theorem exists_of_mem_states (hs : s ∈ t.toAutomaton.states) :
    ∃ c ∈ t.compositions, t.stateOf c = s :=
  List.mem_map.mp (states_eq_map ht ▸ hs)

theorem stateOf_injective (hc : c ∈ t.compositions) (hc' : c' ∈ t.compositions)
    (h : t.stateOf c = t.stateOf c') : c = c' := by
  have hrecords := records_compositions ht
  obtain ⟨i, hi⟩ := List.mem_iff_getElem?.mp hc
  obtain ⟨j, hj⟩ := List.mem_iff_getElem?.mp hc'
  rw [stateOf_of_getElem? hrecords hi, stateOf_of_getElem? hrecords hj] at h
  rw [Naming.name_injective h, hj] at hi
  exact (Option.some.inj hi).symm

theorem eq_initialComposition_iff (hc : c ∈ t.compositions) :
    t.toAutomaton.initial = some (t.stateOf c) ↔ c = t.root.initialComposition := by
  rw [initial_toAutomaton, Option.some.injEq]
  exact ⟨fun h => stateOf_injective ht hc (initial_mem_compositions ht) h.symm, fun h => h ▸ rfl⟩

theorem reachable_stateOf (hc : c ∈ t.compositions) : t.toAutomaton.Reachable (t.stateOf c) := by
  have hleads := (mem_compositions ht).mp hc
  clear hc
  induction hleads with
  | refl => exact ⟨_, [], t.initial_toAutomaton, .nil _⟩
  | tail hleads hnext ih =>
    obtain ⟨symbol, hsymbol⟩ := mem_nextOf.mp hnext
    exact ih.step ((mem_targets_stateOf ht ((mem_compositions ht).mpr hleads)).mpr ⟨_, hsymbol, rfl⟩)

/-- The least access words order the compositions in a way in which they can be found breadth first. -/
theorem breadthFirst_sooner :
    Queue.BreadthFirst (fun c c' => t.toAutomaton.Sooner (t.stateOf c) (t.stateOf c')) t.nextOf
      t.root.initialComposition where
  first := fun hz hne => .of_initial t.initial_toAutomaton
    (mt (eq_initialComposition_iff ht ((mem_compositions ht).mpr hz)).mp hne)
  step := fun {x y z _ _} hx hnext hz hroot hbefore hne hlate => by
    rw [← mem_compositions ht] at hx hz
    obtain ⟨symbol, hy, hbehind⟩ := exists_symbol_of_nextOf hnext
    refine .of_step (reachable_stateOf ht hx) ((mem_targets_stateOf ht hx).mpr ⟨y, hy, rfl⟩)
      (mt (eq_initialComposition_iff ht hz).mp hroot) fun s d hs htarget => ?_
    -- a state before `z` is that of a composition, which is `x` itself or comes later
    obtain ⟨w, hw, rfl⟩ := exists_of_mem_states ht (t.wellFormed_toAutomaton.mem_of_reachable hs)
    obtain ⟨z', hd, heq⟩ := (mem_targets_stateOf ht hw).mp htarget
    cases stateOf_injective ht hz (mem_compositions_of_mem_successors ht hw hd) heq
    rcases hlate w ((mem_compositions ht).mp hw) (mem_nextOf.mpr ⟨d, hd⟩) with rfl | hsooner
    · exact Or.inl ⟨rfl, hbehind d z hd hbefore hne⟩
    · exact Or.inr hsooner

theorem pairwise_sooner_states : t.toAutomaton.states.Pairwise t.toAutomaton.Sooner := by
  rw [states_eq_map ht, List.pairwise_map]
  exact (breadthFirst_sooner ht).pairwise_explore (initialComposition_mem_space ht)
    (fun _ _ _ => mem_space_of_mem_nextOf ht) t.card_space_le

/-! ## No state is useless -/

theorem exists_accepts_walkFrom {visits : List Visit} (hvisits : ∀ x ∈ visits, x.Within t.root)
    (h : ∃ x ∈ visits, ∃ w, x.Admits w) : ∃ word, (t.root.walkFrom visits).Accepts t word := by
  obtain ⟨x, hx, w, hw⟩ := h
  exact ⟨_, (Composition.accepts_walkFrom ht hvisits).mpr ⟨w, ⟨x, hx, hw⟩, rfl⟩⟩

/-- From every composition symbols lead to an end. -/
theorem exists_accepts (hc : c ∈ t.compositions) : ∃ word, c.Accepts t word := by
  rcases ((mem_compositions ht).mp hc).cases_tail with rfl | ⟨c', -, hnext⟩
  · obtain ⟨w, hw⟩ := t.root.exists_marks
    exact exists_accepts_walkFrom ht within_root
      ⟨_, List.mem_singleton.mpr rfl, w, admits_root.mpr hw⟩
  · obtain ⟨symbol, hsymbol⟩ := mem_nextOf.mp hnext
    obtain ⟨⟨p, hp, hterminal⟩, rfl⟩ := Composition.mem_successors.mp hsymbol
    obtain ⟨w, hw⟩ := exists_continues p.returns
    exact exists_accepts_walkFrom ht Composition.within_visitsOn
      ⟨p.leave, Composition.mem_visitsOn.mpr ⟨p, hp, hterminal, rfl⟩, w, admits_leave.mpr hw⟩

theorem live_stateOf (hc : c ∈ t.compositions) : t.toAutomaton.Live (t.stateOf c) := by
  have hrecords := records_compositions ht
  obtain ⟨word, hword⟩ := exists_accepts ht hc
  obtain ⟨i, hi⟩ := List.mem_iff_getElem?.mp hc
  refine ⟨word, ?_⟩
  rw [stateOf_of_getElem? hrecords hi]
  exact (hrecords.acceptsFrom_build hi).mpr ((exists_leads_facts ht hc).mpr hword)

theorem useful_toAutomaton (hs : s ∈ t.toAutomaton.states) :
    t.toAutomaton.Reachable s ∧ t.toAutomaton.Live s := by
  obtain ⟨c, hc, rfl⟩ := exists_of_mem_states ht hs
  exact ⟨reachable_stateOf ht hc, live_stateOf ht hc⟩

end ExpressionTree

namespace Regex

/-- **States of the automaton of an expression.** The first state is the initial one, and every state is
reachable and live. The states have the canonical names one after the other, every state has a least
access word, and a state stands before another exactly if its least access word is the smaller one. -/
theorem toAutomaton_access_order (text : String) (hvalid : (ofString text).validate = .ok ()) :
    ∃ a, (ofString text).toAutomaton = .ok a ∧ a.initial = some (a.stateAt 0) ∧
      (∀ s ∈ a.states, a.Reachable s ∧ a.Live s) ∧
      a.states = Naming.canonical.names a.numStates ∧
      (∀ s ∈ a.states, ∃ u, a.LeastWord s u) ∧
      ∀ i j u v, i < a.numStates → j < a.numStates → a.LeastWord (a.stateAt i) u →
        a.LeastWord (a.stateAt j) v → (i < j ↔ Smaller u v) := by
  obtain ⟨e, he⟩ := exists_derives_of_validate hvalid
  obtain ⟨t, htree, ht, -⟩ := exists_tree hvalid he
  have huseful : ∀ s ∈ t.toAutomaton.states, t.toAutomaton.Reachable s ∧ t.toAutomaton.Live s :=
    fun s => ExpressionTree.useful_toAutomaton ht
  refine ⟨t.toAutomaton, ?_, t.initial_eq_stateAt, huseful, t.states_eq_names,
    fun s hs => Automaton.exists_leastWord (huseful s hs).1, fun i j u v hi hj hu hv => ?_⟩
  · rw [toAutomaton, htree]
    rfl
  · exact Automaton.lt_iff_smaller (ExpressionTree.pairwise_sooner_states ht) hi hj hu hv

/-- Closures one in another, with an empty alternative and symbols that do not come in their order. -/
theorem toAutomaton_access_order_nested :
    (ofString "(b|&a*)+c?").validate = .ok () ∧
      ∃ a, (ofString "(b|&a*)+c?").toAutomaton = .ok a ∧ a.initial = some (a.stateAt 0) ∧
        (∀ s ∈ a.states, a.Reachable s ∧ a.Live s) ∧
        a.states = Naming.canonical.names a.numStates ∧
        (∀ s ∈ a.states, ∃ u, a.LeastWord s u) ∧
        ∀ i j u v, i < a.numStates → j < a.numStates → a.LeastWord (a.stateAt i) u →
          a.LeastWord (a.stateAt j) v → (i < j ↔ Smaller u v) :=
  ⟨rfl, toAutomaton_access_order "(b|&a*)+c?" rfl⟩

end Regex

end RegularSets
