import Mathlib.Data.Set.Finite.Lattice
import Mathlib.Data.Set.Finite.List
import RegularSets.Proofs.Automaton.Decide

/-!
# How many words an automaton accepts

After `n` rounds of stripping leaves, the states that are left are those from which some walk of `n`
transitions starts (`Automaton.stripAll_neighbours`). A round that strips nothing is followed by no
other, and any other round leaves fewer states, so as many rounds as there are states reach the end
(`stripLeaves_stripAll`), and what is left then has walks of every length
(`Automaton.strips_to_nil_iff`).

When all states are useful, a walk is part of an accepted word. So a graph that is not stripped
completely means accepted words of every length, and one that is means a bound on their lengths
(`Automaton.isCyclic_iff`). Since there are finitely many characters, that tells infinite languages
from finite ones (`infinite_iff_unbounded`).
-/

namespace RegularSets

/-! ## Stripping leaves -/

section Strip

variable {graph : List Neighbours} {p : Neighbours} {fuel n : Nat}

/-- The states without a target. -/
def leaves (graph : List Neighbours) : List State :=
  (graph.filter fun p => p.2.isEmpty).map (·.1)

theorem stripLeaves_eq (graph : List Neighbours) :
    stripLeaves graph = (graph.filter fun p => !p.2.isEmpty).map fun p =>
      (p.1, p.2.filter fun t => !(leaves graph).contains t) :=
  rfl

theorem stripLeaves_eq_self (h : ∀ p ∈ graph, p.2.isEmpty = false) : stripLeaves graph = graph := by
  have hleaves : (graph.filter fun p => p.2.isEmpty) = [] :=
    List.filter_eq_nil_iff.mpr fun p hp => by simp [h p hp]
  have hothers : (graph.filter fun p => !p.2.isEmpty) = graph :=
    List.filter_eq_self.mpr fun p hp => by simp [h p hp]
  simp [stripLeaves_eq, leaves, hleaves, hothers]

theorem length_stripLeaves_lt (hp : p ∈ graph) (hleaf : p.2.isEmpty = true) :
    (stripLeaves graph).length < graph.length := by
  rw [stripLeaves_eq, List.length_map]
  exact List.length_filter_lt_length_iff_exists.mpr ⟨p, hp, by simp [hleaf]⟩

theorem stripAll_eq_self (h : stripLeaves graph = graph) : stripAll fuel graph = graph := by
  induction fuel with
  | zero => rfl
  | succ fuel ih => rw [stripAll, h, ih]

/-- As many rounds as there are states leave nothing to strip. -/
theorem stripLeaves_stripAll (h : graph.length ≤ fuel) :
    stripLeaves (stripAll fuel graph) = stripAll fuel graph := by
  induction fuel generalizing graph with
  | zero =>
    cases List.length_eq_zero_iff.mp (Nat.le_zero.mp h)
    rfl
  | succ fuel ih =>
    by_cases hleaf : ∃ p ∈ graph, p.2.isEmpty = true
    · obtain ⟨p, hp, hleaf⟩ := hleaf
      exact ih (Nat.le_of_lt_succ (Nat.lt_of_lt_of_le (length_stripLeaves_lt hp hleaf) h))
    · have hstable : stripLeaves graph = graph :=
        stripLeaves_eq_self fun p hp => by
          rw [← Bool.not_eq_true]
          exact fun hp' => hleaf ⟨p, hp, hp'⟩
      rw [stripAll_eq_self hstable, hstable]

end Strip

namespace Automaton

variable {a : Automaton} {s t : State} {word : List Char} {n : Nat}

/-! ## Walks -/

/-- Does a walk of `n` transitions start from `s`? -/
def hasWalk (a : Automaton) : Nat → State → Bool
  | 0, _ => true
  | n + 1, s => ((a.successors s).map (·.2)).any (a.hasWalk n)

theorem hasWalk_succ_iff : a.hasWalk (n + 1) s = true ↔ ∃ c, ∃ t ∈ a.targets s c, a.hasWalk n t := by
  simp only [hasWalk, List.any_eq_true, mem_neighbours]
  exact ⟨fun ⟨t, ⟨c, ht⟩, hwalk⟩ => ⟨c, t, ht, hwalk⟩, fun ⟨c, t, ht, hwalk⟩ => ⟨t, ⟨c, ht⟩, hwalk⟩⟩

theorem hasWalk_iff : a.hasWalk n s = true ↔ ∃ word t, word.length = n ∧ a.Path s word t := by
  induction n generalizing s with
  | zero => exact iff_of_true rfl ⟨[], s, rfl, .nil s⟩
  | succ n ih =>
    simp only [hasWalk_succ_iff, ih]
    constructor
    · rintro ⟨c, u, hu, word, t, rfl, hpath⟩
      exact ⟨c :: word, t, rfl, .cons hu hpath⟩
    · rintro ⟨word, t, hlength, hpath⟩
      cases hpath with
      | nil => cases hlength
      | cons hu hpath => exact ⟨_, _, hu, _, t, Nat.succ.inj hlength, hpath⟩

theorem hasWalk_of_succ (h : a.hasWalk (n + 1) s = true) : a.hasWalk n s = true := by
  induction n generalizing s with
  | zero => rfl
  | succ n ih =>
    obtain ⟨c, t, ht, hwalk⟩ := hasWalk_succ_iff.mp h
    exact hasWalk_succ_iff.mpr ⟨c, t, ht, ih hwalk⟩

theorem hasWalk_mono {m : Nat} (hmn : m ≤ n) (h : a.hasWalk n s = true) : a.hasWalk m s = true := by
  induction hmn with
  | refl => exact h
  | step _ ih => exact ih (hasWalk_of_succ h)

theorem hasWalk_eq_false {m : Nat} (hmn : m ≤ n) (h : a.hasWalk m s = false) :
    a.hasWalk n s = false := by
  rw [← Bool.not_eq_true] at h ⊢
  exact mt (hasWalk_mono hmn) h

/-! ## What is left -/

/-- The states with walks of `n` transitions, and their targets among these. -/
def walking (a : Automaton) (n : Nat) : List Neighbours :=
  (a.states.filter (a.hasWalk n)).map fun s =>
    (s, ((a.successors s).map (·.2)).filter (a.hasWalk n))

theorem walking_zero : a.walking 0 = a.neighbours := by
  simp [walking, neighbours, hasWalk]

theorem walking_eq_nil_iff : a.walking n = [] ↔ ∀ s ∈ a.states, a.hasWalk n s = false := by
  simp [walking, List.filter_eq_nil_iff]

/-- The targets on walks of `n` transitions are missing if there is no walk that is longer by one. -/
theorem isEmpty_filter_hasWalk :
    (((a.successors s).map (·.2)).filter (a.hasWalk n)).isEmpty = !a.hasWalk (n + 1) s := by
  rw [Bool.eq_iff_iff, List.isEmpty_iff, List.filter_eq_nil_iff, hasWalk, Bool.not_eq_true',
    List.any_eq_false]

theorem leaves_walking : leaves (a.walking n) =
    a.states.filter fun s => a.hasWalk n s && !a.hasWalk (n + 1) s := by
  rw [leaves, walking, List.filter_map, List.map_map, List.filter_filter]
  refine (List.map_id _).trans (List.filter_congr fun s _ => ?_)
  dsimp only [Function.comp_apply]
  rw [isEmpty_filter_hasWalk, Bool.and_comm]

theorem others_walking : ((a.walking n).filter fun p => !p.2.isEmpty) =
    (a.states.filter (a.hasWalk (n + 1))).map fun s =>
      (s, ((a.successors s).map (·.2)).filter (a.hasWalk n)) := by
  rw [walking, List.filter_map, List.filter_filter]
  congr 1
  refine List.filter_congr fun s _ => ?_
  dsimp only [Function.comp_apply]
  rw [isEmpty_filter_hasWalk, Bool.not_not]
  exact Bool.and_eq_left_iff_imp.mpr hasWalk_of_succ

/-- Stripping the leaves once asks for walks that are longer by one. -/
theorem stripLeaves_walking (h : a.WellFormed) : stripLeaves (a.walking n) = a.walking (n + 1) := by
  rw [stripLeaves_eq, leaves_walking, others_walking, List.map_map, walking]
  refine List.map_congr_left fun s _ => Prod.ext rfl ?_
  dsimp only [Function.comp_apply]
  rw [List.filter_filter]
  refine List.filter_congr fun t ht => ?_
  obtain ⟨c, ht⟩ := mem_neighbours.mp ht
  have hcontains : (a.states.filter fun s => a.hasWalk n s && !a.hasWalk (n + 1) s).contains t =
      (a.hasWalk n t && !a.hasWalk (n + 1) t) := by
    rw [Bool.eq_iff_iff, List.contains_iff_mem, List.mem_filter]
    exact and_iff_right (h.mem_of_target ht)
  rw [hcontains]
  cases hlonger : a.hasWalk (n + 1) t with
  | true => rw [hasWalk_of_succ hlonger]; rfl
  | false => cases a.hasWalk n t <;> rfl

theorem stripAll_walking {fuel : Nat} (h : a.WellFormed) :
    stripAll fuel (a.walking n) = a.walking (n + fuel) := by
  induction fuel generalizing n with
  | zero => rfl
  | succ fuel ih => rw [stripAll, stripLeaves_walking h, ih, Nat.add_assoc, Nat.add_comm 1]

theorem stripAll_neighbours (h : a.WellFormed) : stripAll n a.neighbours = a.walking n := by
  rw [← walking_zero, stripAll_walking h, Nat.zero_add]

/-- If stripping leaves a state, then there are walks of every length. -/
theorem strips_to_nil_iff (h : a.WellFormed) :
    stripAll a.neighbours.length a.neighbours = [] ↔
      ∃ n, ∀ s ∈ a.states, a.hasWalk n s = false := by
  constructor
  · rw [stripAll_neighbours h, walking_eq_nil_iff]
    exact fun hnone => ⟨_, hnone⟩
  · rintro ⟨n, hnone⟩
    -- rounds after the end change nothing
    have hmore : stripAll n (stripAll a.neighbours.length a.neighbours) =
        stripAll a.neighbours.length a.neighbours :=
      stripAll_eq_self (stripLeaves_stripAll (Nat.le_refl _))
    rw [← hmore, stripAll_neighbours h, stripAll_walking h, walking_eq_nil_iff]
    exact fun s hs => hasWalk_eq_false (Nat.le_add_left n _) (hnone s hs)

/-! ## Accepted words -/

instance finite_char : Finite Char :=
  Finite.of_injective Char.ordinal fun _ _ => Char.ordinal_inj.mp

/-- A set of words is infinite exactly if it has words of every length or longer. -/
theorem infinite_iff_unbounded {language : Set (List Char)} :
    language.Infinite ↔ ∀ n, ∃ word ∈ language, n ≤ word.length := by
  constructor
  · intro hinfinite n
    by_contra hnone
    refine hinfinite ((List.finite_length_lt Char n).subset fun word hword => ?_)
    exact Nat.lt_of_not_le fun hn => hnone ⟨word, hword, hn⟩
  · intro hlong hfinite
    obtain ⟨bound, hbound⟩ := (hfinite.image List.length).bddAbove
    obtain ⟨word, hword, hlength⟩ := hlong (bound + 1)
    exact absurd (hbound ⟨word, hword, rfl⟩) (Nat.not_le.mpr hlength)

/-- A walk between useful states is part of an accepted word that is at least as long. -/
theorem exists_accepts_of_hasWalk (h : a.WellFormed)
    (huseful : ∀ s ∈ a.states, a.Reachable s ∧ a.Live s) (hs : s ∈ a.states)
    (hwalk : a.hasWalk n s = true) : ∃ word, a.Accepts word ∧ n ≤ word.length := by
  obtain ⟨word, t, rfl, hpath⟩ := hasWalk_iff.mp hwalk
  have ht := h.mem_of_path hs hpath
  obtain ⟨before, after, hacc⟩ := exists_accepts_of_path (huseful s hs).1 hpath (huseful t ht).2
  refine ⟨_, hacc, ?_⟩
  rw [List.length_append, List.length_append]
  omega

theorem hasWalk_of_accepts (hacc : a.Accepts word) :
    ∃ s, a.initial = some s ∧ a.hasWalk word.length s = true := by
  obtain ⟨s, t, hs, hpath, -⟩ := hacc
  exact ⟨s, hs, hasWalk_iff.mpr ⟨word, t, rfl, hpath⟩⟩

section WellFormed

variable (h : a.WellFormed)

include h

theorem isCyclic_iff : a.isCyclic = true ↔ {word | a.Accepts word}.Infinite := by
  have hw := wellFormed_removeUseless h
  rw [isCyclic, Bool.not_eq_true', ← Bool.not_eq_true, List.isEmpty_iff, strips_to_nil_iff hw,
    infinite_iff_unbounded]
  simp only [Set.mem_ofPred_eq, ← accepts_removeUseless h]
  constructor
  · intro hwalks n
    by_contra hnone
    refine hwalks ⟨n, fun s hs => Bool.eq_false_iff.mpr fun hwalk => hnone ?_⟩
    exact exists_accepts_of_hasWalk hw (fun _ => useful_removeUseless h) hs hwalk
  · rintro hlong ⟨n, hnone⟩
    obtain ⟨word, hacc, hn⟩ := hlong n
    obtain ⟨s, hs, hwalk⟩ := hasWalk_of_accepts hacc
    rw [hasWalk_eq_false hn (hnone s (hw.initial_mem hs))] at hwalk
    cases hwalk

theorem isCyclic_minimize : a.minimize.isCyclic = a.isCyclic := by
  rw [Bool.eq_iff_iff, isCyclic_iff h, isCyclic_iff (reduced_minimize h).wellFormed]
  simp only [accepts_minimize h]

theorem languageSize_eq : a.languageSize =
    if a.isEmpty then .empty else if a.isCyclic then .infinite else .finite := by
  rw [languageSize, ← isCyclic_minimize h]
  rfl

/-- **Size of the language.** A well-formed automaton is cyclic exactly if it accepts infinitely many
words, and the size of its language is decided. -/
theorem isCyclic_languageSize :
    (a.isCyclic = true ↔ {word | a.acceptsWord word = true}.Infinite) ∧
      (a.languageSize = .empty ↔ ∀ word, a.acceptsWord word = false) ∧
      (a.languageSize = .finite ↔ (∃ word, a.acceptsWord word = true) ∧
        {word | a.acceptsWord word = true}.Finite) ∧
      (a.languageSize = .infinite ↔ {word | a.acceptsWord word = true}.Infinite) := by
  simp only [← Bool.not_eq_true, acceptsWord_iff]
  refine ⟨isCyclic_iff h, ?_⟩
  by_cases hnone : ∀ word, ¬ a.Accepts word
  · have hsize : a.languageSize = .empty := by
      rw [languageSize_eq h, if_pos ((isEmpty_iff h).mpr hnone)]
    simp [hsize, hnone]
  · have hsize : a.languageSize = if a.isCyclic then .infinite else .finite := by
      rw [languageSize_eq h, if_neg (mt (isEmpty_iff h).mp hnone)]
    have hsome : ∃ word, a.Accepts word := not_forall_not.mp hnone
    by_cases hcyclic : a.isCyclic = true
    · have hinfinite := (isCyclic_iff h).mp hcyclic
      rw [if_pos hcyclic] at hsize
      simp [hsize, hnone, hinfinite]
    · have hfinite := Set.not_infinite.mp (mt (isCyclic_iff h).mpr hcyclic)
      rw [if_neg hcyclic] at hsize
      simp [hsize, hnone, hsome, hfinite]

end WellFormed

/-- A loop from which no word is accepted, and one that the initial state does not reach. -/
def idleLoops : Automaton :=
  empty.changeAll [.addStates ["A", "B", "C", "D"], .addTransition "A" 'a' "B",
    .addTransition "A" 'b' "C", .addTransition "C" 'b' "C", .addTransition "D" 'a' "D",
    .addTransition "D" 'a' "B", .accept "B"]

theorem wellFormed_idleLoops : idleLoops.WellFormed :=
  wellFormed_changeAll wellFormed_empty _

theorem isCyclic_languageSize_idleLoops :
    idleLoops.WellFormed ∧ ¬ {word | idleLoops.acceptsWord word = true}.Infinite ∧
      idleLoops.languageSize = .finite ∧ (∃ word, idleLoops.acceptsWord word = true) ∧
      {word | idleLoops.acceptsWord word = true}.Finite := by
  obtain ⟨hcyclic, -, hfinite, -⟩ := isCyclic_languageSize wellFormed_idleLoops
  have hsize : idleLoops.languageSize = .finite := by decide +kernel
  exact ⟨wellFormed_idleLoops, mt hcyclic.mpr (by decide +kernel), hsize, hfinite.mp hsize⟩

end Automaton

end RegularSets
