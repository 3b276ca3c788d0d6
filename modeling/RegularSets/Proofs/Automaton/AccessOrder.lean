import Mathlib.Data.List.Shortlex
import RegularSets.Proofs.Automaton.Run

/-!
# The order of access words

Words are compared by length first, then symbol by symbol (`Smaller`). The access words of a state are
those that lead there from the initial state, and a reachable state has a least one
(`exists_leastWord`). A state comes sooner than another if one of its access words is smaller than all
access words of the other (`Sooner`).

A successor of `x` comes sooner than every state that is entered from states after `x`, or from `x`
itself on larger symbols (`Sooner.of_step`). If the states are listed so that each comes sooner than
those behind it, the list is in the order of the least access words (`lt_iff_smaller`).
-/

namespace RegularSets

/-! ## Smaller words -/

/-- The word is shorter, or it is as long and has the smaller symbol at the first difference. -/
abbrev Smaller : List Char → List Char → Prop :=
  List.Shortlex (· < ·)

theorem wellFounded_char_lt : WellFounded fun c d : Char => c < d :=
  Subrelation.wf (fun h => h) (InvImage.wf Char.toNat Nat.lt_wfRel.wf)

instance : IsWellOrder (List Char) Smaller where
  wf := List.Shortlex.wf wellFounded_char_lt

variable {u v : List Char} {c d : Char}

theorem lex_concat (hlength : u.length = v.length) (h : List.Lex (· < ·) u v) :
    List.Lex (· < ·) (u ++ [c]) (v ++ [d]) := by
  induction h with
  | nil => cases hlength
  | cons _ ih => exact .cons (ih (Nat.succ.inj hlength))
  | rel h => exact .rel h

/-- What words end with does not matter once they differ. -/
theorem Smaller.concat (h : Smaller u v) : Smaller (u ++ [c]) (v ++ [d]) := by
  rcases List.shortlex_def.mp h with hlt | ⟨hlength, hlex⟩
  · exact .of_length_lt (by simpa using hlt)
  · exact .of_lex (by simpa using hlength) (lex_concat hlength hlex)

theorem smaller_concat_of_lt (h : c < d) : Smaller (u ++ [c]) (u ++ [d]) :=
  ((List.shortlex_singleton_iff c d).mpr h).append_left u

namespace Automaton

variable {a : Automaton} {s t x y z : State} {word : List Char} {i j : Nat}

/-! ## Access words -/

/-- The word labels a path from the initial state. -/
def LeadsTo (a : Automaton) (word : List Char) (s : State) : Prop :=
  ∃ i, a.initial = some i ∧ a.Path i word s

/-- The word leads to the state, and every other word that does is larger. -/
structure LeastWord (a : Automaton) (s : State) (u : List Char) : Prop where
  leadsTo : a.LeadsTo u s
  least : ∀ v, a.LeadsTo v s → v = u ∨ Smaller u v

/-- Some word leads to `s` that is smaller than all that lead to `t`. -/
def Sooner (a : Automaton) (s t : State) : Prop :=
  ∃ u, a.LeadsTo u s ∧ ∀ v, a.LeadsTo v t → Smaller u v

theorem reachable_iff_exists_leadsTo : a.Reachable s ↔ ∃ word, a.LeadsTo word s :=
  exists_comm.trans (by simp only [LeadsTo])

theorem leadsTo_nil : a.LeadsTo [] s ↔ a.initial = some s := by
  simp [LeadsTo]

theorem leadsTo_concat : a.LeadsTo (word ++ [c]) t ↔ ∃ s, a.LeadsTo word s ∧ t ∈ a.targets s c := by
  simp only [LeadsTo, path_append_iff, path_cons_iff, path_nil_iff, exists_eq_right]
  constructor
  · rintro ⟨i, hi, s, hpath, ht⟩
    exact ⟨s, ⟨i, hi, hpath⟩, ht⟩
  · rintro ⟨s, ⟨i, hi, hpath⟩, ht⟩
    exact ⟨i, hi, s, hpath, ht⟩

theorem exists_leastWord (h : a.Reachable s) : ∃ u, a.LeastWord s u := by
  obtain ⟨u, hu, hleast⟩ := (IsWellFounded.wf (r := Smaller)).has_min {u | a.LeadsTo u s}
    (reachable_iff_exists_leadsTo.mp h)
  refine ⟨u, hu, fun v hv => ?_⟩
  rcases trichotomous_of Smaller v u with hlt | heq | hlt
  · exact absurd hlt (hleast v hv)
  · exact Or.inl heq
  · exact Or.inr hlt

theorem LeastWord.unique (hu : a.LeastWord s u) (hv : a.LeastWord s v) : u = v := by
  rcases hu.least v hv.leadsTo with heq | huv
  · exact heq.symm
  · rcases hv.least u hu.leadsTo with heq | hvu
    · exact heq
    · exact absurd hvu (asymm huv)

/-! ## Sooner states -/

theorem Sooner.smaller (h : a.Sooner s t) (hu : a.LeastWord s u) (hv : a.LeastWord t v) :
    Smaller u v := by
  obtain ⟨w, hw, hsmaller⟩ := h
  rcases hu.least w hw with rfl | hlt
  · exact hsmaller v hv.leadsTo
  · exact trans_of Smaller hlt (hsmaller v hv.leadsTo)

/-- No word is smaller than the empty one, and that leads to the initial state alone. -/
theorem Sooner.of_initial (hs : a.initial = some s) (ht : a.initial ≠ some t) : a.Sooner s t := by
  refine ⟨[], leadsTo_nil.mpr hs, fun v hv => ?_⟩
  rcases List.shortlex_nil_or_eq_nil v with h | rfl
  · exact h
  · exact absurd (leadsTo_nil.mp hv) ht

/-- A word that leads to `z` ends with a symbol after a word that leads to a state before `z`, which
is `x` or comes after it. -/
theorem Sooner.of_step (hx : a.Reachable x) (hy : y ∈ a.targets x c) (hz : a.initial ≠ some z)
    (hsource : ∀ s d, a.Reachable s → z ∈ a.targets s d → s = x ∧ c < d ∨ a.Sooner x s) :
    a.Sooner y z := by
  obtain ⟨u, hu, hleast⟩ := exists_leastWord hx
  refine ⟨u ++ [c], leadsTo_concat.mpr ⟨x, hu, hy⟩, fun v hv => ?_⟩
  rcases v.eq_nil_or_concat' with rfl | ⟨v, d, rfl⟩
  · exact absurd (leadsTo_nil.mp hv) hz
  obtain ⟨s, hv, hd⟩ := leadsTo_concat.mp hv
  rcases hsource s d (reachable_iff_exists_leadsTo.mpr ⟨v, hv⟩) hd with ⟨rfl, hlt⟩ | ⟨w, hw, hsmaller⟩
  · rcases hleast v hv with rfl | hlt'
    · exact smaller_concat_of_lt hlt
    · exact hlt'.concat
  · rcases hleast w hw with rfl | hlt
    · exact (hsmaller v hv).concat
    · exact Smaller.concat (trans_of Smaller hlt (hsmaller v hv))

/-- States that are listed with the sooner ones first are in the order of their least words. -/
theorem lt_iff_smaller (h : a.states.Pairwise a.Sooner) (hi : i < a.numStates) (hj : j < a.numStates)
    (hu : a.LeastWord (a.stateAt i) u) (hv : a.LeastWord (a.stateAt j) v) :
    i < j ↔ Smaller u v := by
  have hstep : ∀ {i j : Nat} {u v : List Char}, i < j → j < a.numStates →
      a.LeastWord (a.stateAt i) u → a.LeastWord (a.stateAt j) v → Smaller u v := by
    intro i j u v hlt hj hu hv
    have hi : i < a.numStates := hlt.trans hj
    have hsooner := List.pairwise_iff_getElem.mp h i j hi hj hlt
    rw [stateAt_of_getElem? (List.getElem?_eq_getElem hi)] at hu
    rw [stateAt_of_getElem? (List.getElem?_eq_getElem hj)] at hv
    exact hsooner.smaller hu hv
  refine ⟨fun hlt => hstep hlt hj hu hv, fun hsmaller => ?_⟩
  rcases Nat.lt_trichotomy i j with hlt | rfl | hlt
  · exact hlt
  · exact absurd (hu.unique hv ▸ hsmaller) (irrefl v)
  · exact absurd hsmaller (asymm (hstep hlt hi hv hu))

end Automaton

end RegularSets
