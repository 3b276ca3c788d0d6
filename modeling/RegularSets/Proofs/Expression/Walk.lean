import Mathlib.Data.Finset.Card
import RegularSets.Proofs.Expression.Marks
import RegularSets.Proofs.Expression.Places

/-!
# What a walk finds

A walk makes exactly the visits that the first ones lead to. So the composition it finds holds the
leaves that are led to (`mem_positions_walkFrom`), and it reaches the end if the end is led to
(`reachesEnd_walkFrom`).

What was made is closed under following visits up to what is pending (`Walk.Explores`), and every round
leaves the same visits to be expected (`Round.expects_iff`). A round uses up one pending visit, or makes
one for the first time and adds two pending ones at most, which pays for the fuel. That a visit is known
by its number needs the tree to be numbered.
-/

namespace RegularSets

variable {t : Tree} {x y : Visit} {p q : Place} {direction : Direction} {i fuel : Nat}

namespace Visit

/-! ## Visits of one tree -/

/-- The visit is to a place of the tree, or leaves it. -/
def Within (t : Tree) : Visit → Prop
  | come p _ => p ∈ t.places []
  | finish => True

theorem within_leave (hp : p ∈ t.places []) : p.leave.Within t := by
  rw [Place.leave]
  cases hq : p.following? with
  | none => trivial
  | some q => exact Tree.mem_places_following? hp hq

theorem within_of_go? {m : Move} (hp : p ∈ t.places []) (h : p.go? m = some y) : y.Within t := by
  cases m with
  | left =>
    obtain ⟨q, hq, rfl⟩ := Option.map_eq_some_iff.mp h
    exact Tree.mem_places_left? hp hq
  | right =>
    obtain ⟨q, hq, rfl⟩ := Option.map_eq_some_iff.mp h
    exact Tree.mem_places_right? hp hq
  | next =>
    cases h
    exact within_leave hp

/-- A walk starts at the root. -/
theorem within_root : ∀ x ∈ [come ⟨t, []⟩ .down], x.Within t := by
  intro x hx
  rw [List.mem_singleton.mp hx]
  exact Tree.mem_places_self

/-- A walk stays in the tree. -/
theorem Within.next (hx : x.Within t) (hy : y ∈ x.next) : y.Within t := by
  rcases x with ⟨p, direction⟩ | _
  · have hmoves : ∀ moves : List Move, y ∈ moves.filterMap p.go? → y.Within t := fun moves hmem =>
      have ⟨_, _, hgo⟩ := List.mem_filterMap.mp hmem
      within_of_go? hx hgo
    rw [Visit.next, Place.visitsAfter.eq_def] at hy
    split at hy
    · cases direction
      · cases hy
      · cases List.mem_singleton.mp hy
        exact within_leave hx
    · cases List.mem_singleton.mp hy
      exact within_leave hx
    · exact hmoves _ hy
    · exact hmoves _ hy
  · cases hy

theorem Within.of_leads (hx : x.Within t) (h : x.Leads y) : y.Within t := by
  induction h with
  | refl => exact hx
  | tail _ hnext ih => exact ih.next hnext

theorem length_next_le : x.next.length ≤ 2 := by
  have hmoves : ∀ (p : Place) (op : Operator) (direction : Direction),
      ((op.moves direction).filterMap p.go?).length ≤ 2 := by
    intro p op direction
    refine Nat.le_trans (List.length_filterMap_le _ _) ?_
    rcases op with k | m
    · cases k <;> cases direction <;> decide
    · cases m <;> cases direction <;> decide
  rcases x with ⟨p, direction⟩ | _
  · rw [Visit.next, Place.visitsAfter.eq_def]
    split
    · cases direction <;> simp
    · simp
    · exact hmoves _ _ _
    · exact hmoves _ _ _
  · simp [Visit.next]

/-- The position of a terminal that the visit enters. -/
def consumed? : Visit → Option Nat
  | come p direction => p.consumed? direction
  | finish => none

end Visit

namespace Walk

open Visit

variable {pending pending' : List Visit} {w w' : Walk}

/-- The visit was made. -/
def Made (w : Walk) : Visit → Prop
  | come p direction => key p direction ∈ w.visited
  | finish => w.reachesEnd = true

/-- What was made in the tree is closed up to what is pending, and has given the positions. -/
structure Explores (t : Tree) (pending : List Visit) (w : Walk) : Prop where
  within : ∀ {x : Visit}, x ∈ pending → x.Within t
  closed : ∀ {x y : Visit}, x.Within t → w.Made x → y ∈ x.next → w.Made y ∨ y ∈ pending
  mem_positions : ∀ {i : Nat}, i ∈ w.positions ↔ ∃ x, x.Within t ∧ w.Made x ∧ x.consumed? = some i

/-- What was made or is pending leads to the visit. -/
def Expects (t : Tree) (pending : List Visit) (w : Walk) (x : Visit) : Prop :=
  ∃ y, (y.Within t ∧ w.Made y ∨ y ∈ pending) ∧ y.Leads x

/-- With nothing pending all visits were made that the made ones lead to. -/
theorem Explores.made_iff (h : Explores t [] w) (hx : x.Within t) : w.Made x ↔ Expects t [] w x := by
  constructor
  · exact fun hmade => ⟨x, Or.inl ⟨hx, hmade⟩, .refl⟩
  · rintro ⟨y, ⟨hy, hmade⟩ | hnil, hleads⟩
    · induction hleads with
      | refl => exact hmade
      | tail hyz hnext ih =>
        have hz := hy.of_leads hyz
        exact (h.closed hz (ih hz) hnext).resolve_right List.not_mem_nil
    · cases hnil

/-! ## One round -/

/-- From one state of a walk to the next one by making the visit `x`, now or earlier. -/
structure Round (t : Tree) (x : Visit) (pending pending' : List Visit) (w w' : Walk) : Prop where
  made_iff : ∀ {y : Visit}, y.Within t → (w'.Made y ↔ w.Made y ∨ y = x)
  still : ∀ {y : Visit}, y ∈ pending → y ∈ pending'
  source : ∀ {y : Visit}, y ∈ pending' → y ∈ x.next ∨ y ∈ pending
  next : ∀ {y : Visit}, y ∈ x.next → w'.Made y ∨ y ∈ pending'
  mem_positions : ∀ {i : Nat}, i ∈ w'.positions ↔ i ∈ w.positions ∨ x.consumed? = some i

theorem Round.explores (hround : Round t x pending pending' w w')
    (h : Explores t (x :: pending) w) : Explores t pending' w' := by
  have hx : x.Within t := h.within List.mem_cons_self
  refine ⟨fun {y} hy => ?_, fun {y z} hy hmade hz => ?_, fun {i} => ?_⟩
  · rcases hround.source hy with hy | hy
    · exact hx.next hy
    · exact h.within (List.mem_cons_of_mem _ hy)
  · rcases (hround.made_iff hy).mp hmade with hmade | rfl
    · rcases h.closed hy hmade hz with hmade' | hpending
      · exact Or.inl ((hround.made_iff (hy.next hz)).mpr (Or.inl hmade'))
      · rcases List.mem_cons.mp hpending with rfl | hpending
        · exact Or.inl ((hround.made_iff hx).mpr (Or.inr rfl))
        · exact Or.inr (hround.still hpending)
    · exact hround.next hz
  · rw [hround.mem_positions, h.mem_positions]
    constructor
    · rintro (⟨y, hy, hmade, hi⟩ | hi)
      · exact ⟨y, hy, (hround.made_iff hy).mpr (Or.inl hmade), hi⟩
      · exact ⟨x, hx, (hround.made_iff hx).mpr (Or.inr rfl), hi⟩
    · rintro ⟨y, hy, hmade, hi⟩
      rcases (hround.made_iff hy).mp hmade with hmade | rfl
      · exact Or.inl ⟨y, hy, hmade, hi⟩
      · exact Or.inr hi

/-- A round leaves the same visits to be expected. -/
theorem Round.expects_iff (hround : Round t x pending pending' w w') (hx : x.Within t) :
    Expects t pending' w' y ↔ Expects t (x :: pending) w y := by
  constructor
  · intro h
    rcases h with ⟨z, ⟨hz, hmade⟩ | hpending, hleads⟩
    · rcases (hround.made_iff hz).mp hmade with hmade | rfl
      · exact ⟨z, Or.inl ⟨hz, hmade⟩, hleads⟩
      · exact ⟨z, Or.inr List.mem_cons_self, hleads⟩
    · rcases hround.source hpending with hnext | hpending
      · exact ⟨x, Or.inr List.mem_cons_self, .head hnext hleads⟩
      · exact ⟨z, Or.inr (List.mem_cons_of_mem _ hpending), hleads⟩
  · intro h
    rcases h with ⟨z, ⟨hz, hmade⟩ | hpending, hleads⟩
    · exact ⟨z, Or.inl ⟨hz, (hround.made_iff hz).mpr (Or.inl hmade)⟩, hleads⟩
    · rcases List.mem_cons.mp hpending with rfl | hpending
      · exact ⟨z, Or.inl ⟨hx, (hround.made_iff hx).mpr (Or.inr rfl)⟩, hleads⟩
      · exact ⟨z, Or.inr (hround.still hpending), hleads⟩

theorem round_finish : Round t .finish pending pending w { w with reachesEnd := true } where
  made_iff := fun {y} _ => by
    cases y with
    | come p direction => simp [Made]
    | finish => simp [Made]
  still := id
  source := Or.inr
  next := fun hy => by cases hy
  mem_positions := by simp [Visit.consumed?]

/-- A visit that was made before is only struck off. -/
theorem Explores.round_again (h : Explores t (x :: pending) w) (hmade : w.Made x) :
    Round t x pending pending w w where
  made_iff := fun {y} _ => ⟨Or.inl, fun hy => hy.elim id fun heq => heq ▸ hmade⟩
  still := id
  source := Or.inr
  next := fun {y} hy => by
    rcases h.closed (h.within List.mem_cons_self) hmade hy with hmade' | hpending
    · exact Or.inl hmade'
    · rcases List.mem_cons.mp hpending with rfl | hpending
      · exact Or.inl hmade
      · exact Or.inr hpending
  mem_positions := ⟨Or.inl, fun hi => hi.elim id fun hconsumed =>
    h.mem_positions.mpr ⟨x, h.within List.mem_cons_self, hmade, hconsumed⟩⟩

theorem key_inj {d : Direction} (ht : t.Numbered 0 1) (hp : p ∈ t.places []) (hq : q ∈ t.places [])
    (h : key p direction = key q d) : come p direction = come q d := by
  cases direction <;> cases d <;> simp only [key] at h
  case down.down => rw [Tree.eq_of_number ht hp hq (by omega)]
  case up.up => rw [Tree.eq_of_number ht hp hq (by omega)]
  case down.up => omega
  case up.down => omega

theorem round_come (ht : t.Numbered 0 1) (hp : p ∈ t.places []) :
    Round t (.come p direction) pending (p.visitsAfter direction ++ pending) w
      { w with
        visited := w.visited.insert (key p direction)
        positions := (p.consumed? direction).toList ++ w.positions } where
  made_iff := fun {y} hy => by
    rcases y with ⟨q, d⟩ | _
    · rw [Made, Made, Std.ExtTreeSet.mem_insert, Std.LawfulEqCmp.compare_eq_iff_eq, or_comm]
      refine or_congr_right ⟨fun heq => (key_inj ht hp hy heq).symm, fun heq => ?_⟩
      cases heq
      rfl
    · simp [Made]
  still := List.mem_append_right _
  source := List.mem_append.mp
  next := fun hy => Or.inr (List.mem_append_left _ hy)
  mem_positions := by simp [Visit.consumed?, or_comm]

/-! ## All rounds -/

/-- How many visits of places were not made yet. -/
def numOpen (t : Tree) (visited : Std.ExtTreeSet Nat) : Nat :=
  ((Finset.range (2 * t.size)).filter fun k => k ∉ visited).card

theorem numOpen_insert_lt {visited : Std.ExtTreeSet Nat} {k : Nat} (hk : k < 2 * t.size)
    (hnew : k ∉ visited) : numOpen t (visited.insert k) < numOpen t visited := by
  refine Finset.card_lt_card (Finset.ssubset_iff_of_subset ?_ |>.mpr ⟨k, ?_, ?_⟩)
  · intro j hj
    simp only [Finset.mem_filter, Std.ExtTreeSet.mem_insert, not_or] at hj ⊢
    exact ⟨hj.1, hj.2.2⟩
  · simpa using ⟨hk, hnew⟩
  · simp

theorem key_lt (ht : t.Numbered 0 1) (hp : p ∈ t.places []) : key p direction < 2 * t.size := by
  have hlt := Tree.number_lt ht hp
  cases direction <;> simp only [key] <;> omega

/-- A walk with enough fuel makes all the visits that are to be expected. -/
theorem run_spec (ht : t.Numbered 0 1) (h : Explores t pending w)
    (hfuel : pending.length + 2 * numOpen t w.visited ≤ fuel) :
    Explores t [] (run fuel pending w) ∧
      ∀ x, Expects t [] (run fuel pending w) x ↔ Expects t pending w x := by
  induction fuel generalizing pending w with
  | zero =>
    cases List.eq_nil_of_length_eq_zero (by omega : pending.length = 0)
    exact ⟨h, fun _ => Iff.rfl⟩
  | succ fuel ih =>
    rcases pending with _ | ⟨x, pending⟩
    · exact ⟨h, fun _ => Iff.rfl⟩
    have hx : x.Within t := h.within List.mem_cons_self
    have hround : ∀ {pending' w'}, Round t x pending pending' w w' →
        pending'.length + 2 * numOpen t w'.visited ≤ fuel → Explores t [] (run fuel pending' w') ∧
          ∀ y, Expects t [] (run fuel pending' w') y ↔ Expects t (x :: pending) w y := by
      intro pending' w' hround hfuel'
      obtain ⟨hexplores, hexpects⟩ := ih (hround.explores h) hfuel'
      exact ⟨hexplores, fun y => (hexpects y).trans (hround.expects_iff hx)⟩
    rw [List.length_cons] at hfuel
    rcases x with ⟨p, direction⟩ | _
    · rw [run]
      split
      · next hseen =>
        have hmade : w.Made (come p direction) := Std.ExtTreeSet.mem_iff_contains.mpr hseen
        exact hround (h.round_again hmade) (by omega)
      · next hseen =>
        have hnew : key p direction ∉ w.visited := fun hmem =>
          hseen (Std.ExtTreeSet.mem_iff_contains.mp hmem)
        refine hround (round_come ht hx) ?_
        have hlength : (p.visitsAfter direction).length ≤ 2 := length_next_le (x := .come p direction)
        have hlt := numOpen_insert_lt (key_lt ht hx) hnew
        show (p.visitsAfter direction ++ pending).length +
          2 * numOpen t (w.visited.insert (key p direction)) ≤ fuel
        rw [List.length_append]
        omega
    · refine hround round_finish ?_
      show pending.length + 2 * numOpen t w.visited ≤ fuel
      omega

end Walk

/-! ## Compositions -/

namespace Tree

variable {visits : List Visit}

theorem walkFrom_spec (ht : t.Numbered 0 1) (hvisits : ∀ x ∈ visits, x.Within t) :
    ∃ w : Walk, t.walkFrom visits = w.composition ∧ Walk.Explores t [] w ∧
      ∀ x, x.Within t → (w.Made x ↔ ∃ y ∈ visits, y.Leads x) := by
  have hnone : ∀ x, ¬ Walk.Made {} x := by
    intro x
    cases x <;> simp [Walk.Made]
  have hstart : Walk.Explores t visits {} :=
    ⟨fun {x} => hvisits x, fun _ hmade => absurd hmade (hnone _), by simp [hnone]⟩
  have hfuel : visits.length + 2 * Walk.numOpen t ∅ ≤ visits.length + 4 * t.size := by
    have hopen : Walk.numOpen t ∅ ≤ 2 * t.size :=
      (Finset.card_filter_le _ _).trans (Finset.card_range _).le
    omega
  obtain ⟨hexplores, hexpects⟩ := Walk.run_spec ht hstart hfuel
  refine ⟨_, rfl, hexplores, fun x hx => ?_⟩
  rw [hexplores.made_iff hx, hexpects]
  simp [Walk.Expects, hnone]

theorem mem_positions_walkFrom (ht : t.Numbered 0 1) (hvisits : ∀ x ∈ visits, x.Within t) :
    i ∈ (t.walkFrom visits).positions ↔
      ∃ x ∈ visits, ∃ p, x.Leads (.come p .down) ∧ p.consumed? .down = some i := by
  obtain ⟨w, heq, hexplores, hmade⟩ := walkFrom_spec ht hvisits
  rw [heq, Walk.composition, mem_ascending, hexplores.mem_positions]
  constructor
  · intro h
    obtain ⟨y, hy, hymade, hi⟩ := h
    obtain ⟨x, hx, hleads⟩ := (hmade y hy).mp hymade
    rcases y with ⟨p, _ | _⟩ | _
    · exact ⟨x, hx, p, hleads, hi⟩
    · cases hi
    · cases hi
  · intro h
    obtain ⟨x, hx, p, hleads, hi⟩ := h
    have hp := (hvisits x hx).of_leads hleads
    exact ⟨.come p .down, hp, (hmade _ hp).mpr ⟨x, hx, hleads⟩, hi⟩

theorem reachesEnd_walkFrom (ht : t.Numbered 0 1) (hvisits : ∀ x ∈ visits, x.Within t) :
    (t.walkFrom visits).reachesEnd = true ↔ ∃ x ∈ visits, x.Leads .finish := by
  obtain ⟨w, heq, -, hmade⟩ := walkFrom_spec ht hvisits
  rw [heq]
  exact hmade .finish trivial

end Tree

end RegularSets
