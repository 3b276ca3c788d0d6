import RegularSets.Proofs.Automaton.Run

/-!
# Reading step by step

Reading step by step follows the first target of every symbol (`readWord_eq`), and once a symbol has no
target the rest of the word is read in vain (`follow_none`). The first targets are one of the paths that
the word labels (`path_of_follow`), so nothing is accepted that is not accepted all at once. A
deterministic automaton has no other path (`Deterministic.follow_eq`), and only there the two ways of
reading agree (`acceptsWord_accepts_readWord`).
-/

namespace RegularSets.Automaton

variable {a : Automaton} {s t : State} {word : List Char}

/-- Where the first targets lead from the current state along a word. -/
def follow (a : Automaton) (current : Option State) (word : List Char) : Option State :=
  word.foldl (fun current c => current.bind fun s => (a.targets s c).head?) current

/-- Reading a word changes the current state alone. -/
theorem readWord_eq (word : List Char) :
    a.readWord word = { a with current := a.follow a.current word } := by
  induction word generalizing a with
  | nil => rfl
  | cons c word ih => exact ih (a := a.read c)

theorem follow_none (word : List Char) : a.follow none word = none := by
  induction word with
  | nil => rfl
  | cons c word ih => exact ih

theorem path_of_follow (h : a.follow (some s) word = some t) : a.Path s word t := by
  induction word generalizing s with
  | nil =>
    cases h
    exact .nil _
  | cons c word ih =>
    have hfollow : a.follow (a.targets s c).head? word = some t := h
    cases hhead : (a.targets s c).head? with
    | none =>
      rw [hhead, follow_none] at hfollow
      cases hfollow
    | some u =>
      rw [hhead] at hfollow
      exact .cons (List.mem_of_mem_head? hhead) (ih hfollow)

theorem Deterministic.follow_eq (hdet : a.Deterministic) (h : a.Path s word t) :
    a.follow (some s) word = some t := by
  induction h with
  | nil s => rfl
  | @cons s u t c word hstep _ ih =>
    have hhead : (a.targets s c).head? = some u := by rw [hdet.targets_eq hstep, List.head?_cons]
    show a.follow (a.targets s c).head? word = some t
    rw [hhead, ih]

theorem accepts_readWord_reset : (a.reset.readWord word).accepts = true ↔
    ∃ t, a.follow a.initial word = some t ∧ t ∈ a.accepting := by
  rw [readWord_eq, accepts, Option.any_eq_true]
  exact exists_congr fun t => and_congr_right fun _ => decide_eq_true_iff

/-- Step by step nothing is accepted but words that label an accepting path. -/
theorem accepts_of_readWord (h : (a.reset.readWord word).accepts = true) : a.Accepts word := by
  obtain ⟨t, hfollow, ht⟩ := accepts_readWord_reset.mp h
  cases hi : a.initial with
  | none =>
    rw [hi, follow_none] at hfollow
    cases hfollow
  | some s =>
    rw [hi] at hfollow
    exact ⟨s, t, hi, path_of_follow hfollow, ht⟩

/-- In a deterministic automaton every accepting path is the one that is followed. -/
theorem Deterministic.accepts_readWord (hdet : a.Deterministic) (h : a.Accepts word) :
    (a.reset.readWord word).accepts = true := by
  obtain ⟨s, t, hi, hpath, ht⟩ := h
  exact accepts_readWord_reset.mpr ⟨t, hi ▸ hdet.follow_eq hpath, ht⟩

/-- **Two ways of reading.** All at once, a word is accepted exactly if it labels a path of stored
transitions from the initial state to an accepting one. Step by step from the initial state, a
deterministic automaton accepts the same words, and any other accepts none but these. -/
theorem acceptsWord_accepts_readWord (a : Automaton) (word : List Char) :
    (a.acceptsWord word = true ↔
        ∃ s t, a.initial = some s ∧ a.Path s word t ∧ t ∈ a.accepting) ∧
      (a.isDeterministic = true → (a.reset.readWord word).accepts = a.acceptsWord word) ∧
      ((a.reset.readWord word).accepts = true → a.acceptsWord word = true) := by
  have hsound : (a.reset.readWord word).accepts = true → a.acceptsWord word = true :=
    fun h => acceptsWord_iff.mpr (accepts_of_readWord h)
  refine ⟨acceptsWord_iff, fun hdet => Bool.eq_iff_iff.mpr ⟨hsound, fun h => ?_⟩, hsound⟩
  exact (isDeterministic_iff.mp hdet).accepts_readWord (acceptsWord_iff.mp h)

/-- Reading `x` in `A` may stay there, which is tried first, or go to `B`. -/
def forked : Automaton :=
  (((empty.addStates ["A", "B"]).addTransition "A" 'x' "A").addTransition "A" 'x' "B").accept "B"

/-- With two targets the second one is missed step by step. -/
example : (forked.reset.readWord ['x']).accepts = false ∧ forked.acceptsWord ['x'] = true := by
  decide

end RegularSets.Automaton
