import Mathlib.Data.Nat.Find
import RegularSets.Proofs.Automaton.Change

/-!
# Distances

The distance of a state from a start is the length of a shortest path (`Distance`). A target is at most
one step further away than its source, and a state other than the start has a source that is exactly one
step nearer (`Distance.exists_source`). So if none of the sources of `z` is nearer than `x`, then no
target of `x` is further away than `z`: being at least as near is an order that is breadth first
(`breadthFirst_asNear`), and the search lists the states in this order, whatever cycles there are
(`accessible_spec`).

That the start comes first needs no invariant of the search: it is the only state at distance 0.
-/

namespace RegularSets.Automaton

variable {a : Automaton} {s t x y z : State} {c : Char} {word : List Char} {m n : Nat}

/-! ## Shortest paths -/

/-- A shortest path from `s` to `t` has `n` symbols. -/
structure Distance (a : Automaton) (s t : State) (n : Nat) : Prop where
  exists_path : ∃ word, a.Path s word t ∧ word.length = n
  le_length : ∀ word, a.Path s word t → n ≤ word.length

theorem exists_distance (hpath : a.Path s word t) : ∃ n ≤ word.length, a.Distance s t n := by
  classical
  have hlengths : ∃ n, ∃ word, a.Path s word t ∧ word.length = n := ⟨_, word, hpath, rfl⟩
  have hleast : ∀ word, a.Path s word t → Nat.find hlengths ≤ word.length := fun word hpath =>
    Nat.find_min' hlengths ⟨word, hpath, rfl⟩
  exact ⟨Nat.find hlengths, hleast word hpath, Nat.find_spec hlengths, hleast⟩

theorem distance_self (a : Automaton) (s : State) : a.Distance s s 0 :=
  ⟨⟨[], .nil s, rfl⟩, fun _ _ => Nat.zero_le _⟩

namespace Distance

/-- No other state is at distance 0. -/
theorem eq_of_zero (h : a.Distance s t 0) : t = s := by
  obtain ⟨word, hpath, hlength⟩ := h.exists_path
  rw [List.eq_nil_of_length_eq_zero hlength, path_nil_iff] at hpath
  exact hpath.symm

theorem le_succ (hx : a.Distance s x m) (hy : a.Distance s y n) (hstep : y ∈ a.targets x c) :
    n ≤ m + 1 := by
  obtain ⟨word, hpath, rfl⟩ := hx.exists_path
  have hle : n ≤ (word ++ [c]).length := hy.le_length _ (hpath.snoc hstep)
  rwa [List.length_append, List.length_singleton] at hle

/-- A shortest path comes through a state that is one step nearer. -/
theorem exists_source (hz : a.Distance s z n) (hne : z ≠ s) :
    ∃ x c m, z ∈ a.targets x c ∧ a.Distance s x m ∧ n = m + 1 := by
  obtain ⟨word, hpath, hlength⟩ := hz.exists_path
  rcases word.eq_nil_or_concat' with rfl | ⟨word, c, rfl⟩
  · exact absurd (path_nil_iff.mp hpath).symm hne
  · obtain ⟨x, hpath, hstep⟩ := path_append_iff.mp hpath
    have hzx : z ∈ a.targets x c := by simpa using hstep
    obtain ⟨m, hm, hx⟩ := exists_distance hpath
    rw [List.length_append, List.length_singleton] at hlength
    exact ⟨x, c, m, hzx, hx, Nat.le_antisymm (hx.le_succ hz hzx) (hlength ▸ Nat.succ_le_succ hm)⟩

end Distance

/-! ## The order of the search -/

/-- Both states can be reached from `s`, and `x` is at least as near as `y`. -/
def AsNear (a : Automaton) (s x y : State) : Prop :=
  ∃ m n, a.Distance s x m ∧ a.Distance s y n ∧ m ≤ n

theorem AsNear.eq_of_self (h : a.AsNear s t s) : t = s := by
  obtain ⟨m, n, ht, hs, hle⟩ := h
  have hn : n ≤ 0 := hs.le_length [] (.nil s)
  obtain rfl : m = 0 := Nat.le_zero.mp (hle.trans hn)
  exact ht.eq_of_zero

theorem breadthFirst_asNear (a : Automaton) (s : State) :
    Queue.BreadthFirst (a.AsNear s) (fun s => (a.successors s).map (·.2)) s where
  first := by
    intro z hz _
    obtain ⟨word, hpath⟩ := leads_iff_path.mp hz
    obtain ⟨n, -, hn⟩ := exists_distance hpath
    exact ⟨0, n, distance_self a s, hn, Nat.zero_le n⟩
  step := by
    intro x y z before after hx hnext hz hne _ _ hsources
    have hxy : y ∈ (a.successors x).map (·.2) := by simp [hnext]
    obtain ⟨c, hstep⟩ := mem_neighbours.mp hxy
    obtain ⟨word, hpath⟩ := leads_iff_path.mp hx
    obtain ⟨word', hpath'⟩ := leads_iff_path.mp hz
    obtain ⟨k, -, hk⟩ := exists_distance hpath
    obtain ⟨m, -, hm⟩ := exists_distance (hpath.snoc hstep)
    obtain ⟨n, -, hn⟩ := exists_distance hpath'
    obtain ⟨w, d, l, hzw, hl, rfl⟩ := hn.exists_source hne
    -- the source of `z` on a shortest path is `x` or no nearer than `x`
    have hkl : k ≤ l := by
      obtain ⟨wordw, hpathw, rfl⟩ := hl.exists_path
      have hw := leads_iff_path.mpr ⟨wordw, hpathw⟩
      rcases hsources w hw (mem_neighbours.mpr ⟨d, hzw⟩) with rfl | ⟨k', l', hk', hl', hle⟩
      · exact hk.le_length _ hpathw
      · obtain ⟨wordx, hpathx, rfl⟩ := hk'.exists_path
        exact (hk.le_length _ hpathx).trans (hle.trans (hl'.le_length _ hpathw))
    exact ⟨m, l + 1, hm, hn, (hk.le_succ hm hstep).trans (Nat.succ_le_succ hkl)⟩

/-! ## What the search lists -/

/-- The list holds the states that can be reached from `s`, each of them once, beginning with `s`
itself and never coming nearer to it again. -/
structure ListsReachable (a : Automaton) (s : State) (l : List State) : Prop where
  mem_iff : ∀ t, t ∈ l ↔ ∃ word, a.Path s word t
  nodup : l.Nodup
  head : l.head? = some s
  distances : l.Pairwise (a.AsNear s)

theorem listsReachable_accessibleFrom (hs : s ∈ a.states) :
    a.ListsReachable s (a.accessibleFrom s) := by
  have hmem : ∀ t, t ∈ a.accessibleFrom s ↔ ∃ word, a.Path s word t := fun t =>
    mem_accessibleFrom.trans (and_iff_right hs)
  have hnodup : (a.accessibleFrom s).Nodup := by
    rw [accessibleFrom, if_pos hs]
    exact Queue.nodup_explore (a.searchSpace s) (List.forall_mem_singleton.mpr self_mem_searchSpace)
      (fun _ _ _ => neighbour_mem_searchSpace) card_searchSpace_le
  have hnear : (a.accessibleFrom s).Pairwise (a.AsNear s) := by
    rw [accessibleFrom, if_pos hs]
    exact (breadthFirst_asNear a s).pairwise_explore self_mem_searchSpace
      (fun _ _ _ => neighbour_mem_searchSpace) card_searchSpace_le
  refine ⟨hmem, hnodup, ?_, hnear⟩
  have hself : s ∈ a.accessibleFrom s := (hmem s).mpr ⟨[], .nil s⟩
  generalize a.accessibleFrom s = l at hself hnear
  cases l with
  | nil => cases hself
  | cons t rest =>
    rcases List.mem_cons.mp hself with rfl | hself
    · rfl
    · have hts : a.AsNear s t s := (List.pairwise_cons.mp hnear).1 s hself
      rw [hts.eq_of_self, List.head?_cons]

/-- **Accessible states.** The search from a state lists exactly the states that can be reached from it,
each once, the state itself first, and their distances from it never decrease along the list. So does the
search from the initial state. From anything that is not a state, and without an initial state, nothing
is listed. -/
theorem accessible_spec (h : a.WellFormed) :
    (∀ s ∈ a.states, a.ListsReachable s (a.accessibleFrom s)) ∧
      (∀ s, s ∉ a.states → a.accessibleFrom s = []) ∧
      (∀ s, a.initial = some s → a.ListsReachable s a.accessible) ∧
      (a.initial = none → a.accessible = []) := by
  refine ⟨fun s hs => listsReachable_accessibleFrom hs, fun s hs => ?_, fun s hs => ?_, fun hnone => ?_⟩
  · rw [accessibleFrom, if_neg hs]
  · have heq : a.accessible = a.accessibleFrom s := by rw [accessible, hs]
    rw [heq]
    exact listsReachable_accessibleFrom (h.initial_mem hs)
  · rw [accessible, hnone]

/-- Two ways round to one state, each with a way back, and a state that nothing leads to. -/
def roundTrips : Automaton :=
  empty.changeAll [.addStates ["E", "A", "B", "C", "D"], .setInitial "B", .addTransition "A" 'x' "D",
    .addTransition "A" 'x' "B", .addTransition "A" 'y' "C", .addTransition "B" 'x' "A",
    .addTransition "B" 'y' "B", .addTransition "C" 'x' "A", .addTransition "D" 'x' "C",
    .addTransition "E" 'x' "A"]

theorem wellFormed_roundTrips : roundTrips.WellFormed :=
  wellFormed_changeAll wellFormed_empty _

theorem accessible_spec_roundTrips :
    roundTrips.WellFormed ∧ roundTrips.accessibleFrom "D" = ["D", "C", "A", "B"] ∧
      roundTrips.accessible = ["B", "A", "D", "C"] ∧
      (∀ s ∈ roundTrips.states, roundTrips.ListsReachable s (roundTrips.accessibleFrom s)) ∧
      (∀ s, s ∉ roundTrips.states → roundTrips.accessibleFrom s = []) ∧
      (∀ s, roundTrips.initial = some s → roundTrips.ListsReachable s roundTrips.accessible) ∧
      (roundTrips.initial = none → roundTrips.accessible = []) :=
  ⟨wellFormed_roundTrips, by decide +kernel, by decide +kernel, accessible_spec wellFormed_roundTrips⟩

end RegularSets.Automaton
