import RegularSets.Proofs.Automaton.Builder
import RegularSets.Proofs.Automaton.Completed

/-!
# Products

The builder of a product is told of all pairs of places what the two automata do there
(`productFacts`). So a word over the alphabet leads from a pair to the pair of the places that it
leads to on either side, and the product accepts what the Boolean function makes of the two answers
(`exists_leads_productFacts`). Outside the alphabet there are no transitions, and neither of the two
automata accepts a word that leaves it: for a function that rejects what both reject, the alphabet can
be forgotten (`acceptsWord_product`). Union, intersection and difference are of this kind.
-/

namespace RegularSets.Automaton

variable {accept : Bool → Bool → Bool} {alphabet word : List Char} {c : Char} {i j : Nat}

/-! ## The builder of a product -/

theorem getD_targetPlaces {a : Automaton} {fallback : Nat} (hi : i < a.numStates) :
    (a.targetPlaces alphabet fallback).getD i [] = alphabet.map (a.nextPlace fallback i) := by
  rw [targetPlaces, List.getD_eq_getElem?_getD, List.getElem?_map, getElem?_states hi]
  rfl

namespace Completed

variable {l r : Completed} {p q : Nat × Nat}

theorem mem_pairs :
    (i, j) ∈ pairs l r ↔ i < l.automaton.numStates ∧ j < r.automaton.numStates := by
  simp [pairs]

/-- The transitions out of a pair: on each symbol of the alphabet, both sides move on. -/
def pairMoves (alphabet : List Char) (l r : Completed) (p : Nat × Nat) :
    List (Char × (Nat × Nat)) :=
  alphabet.zip (((l.automaton.targetPlaces alphabet l.sink).getD p.1 []).zip
    ((r.automaton.targetPlaces alphabet r.sink).getD p.2 []))

theorem mem_pairMoves (hi : i < l.automaton.numStates) (hj : j < r.automaton.numStates) :
    (c, q) ∈ pairMoves alphabet l r (i, j) ↔ c ∈ alphabet ∧ q = (l.next i c, r.next j c) := by
  have hmoves : pairMoves alphabet l r (i, j) =
      alphabet.map fun c => (c, l.next i c, r.next j c) := by
    have hzip : (alphabet.map id).zip (alphabet.map fun c => (l.next i c, r.next j c)) =
        alphabet.map fun c => (c, l.next i c, r.next j c) := List.zip_map'
    rw [List.map_id] at hzip
    rw [pairMoves, getD_targetPlaces hi, getD_targetPlaces hj, List.zip_map']
    exact hzip
  rw [hmoves, List.mem_map]
  constructor
  · rintro ⟨d, hd, heq⟩
    obtain ⟨rfl, rfl⟩ := Prod.mk.inj heq
    exact ⟨hd, rfl⟩
  · rintro ⟨hc, rfl⟩
    exact ⟨c, hc, rfl⟩

/-- All pairs are mentioned, and then it is said of each what it does. -/
def productFacts (accept : Bool → Bool → Bool) (alphabet : List Char) (l r : Completed) :
    List (Builder.Fact (Nat × Nat)) :=
  (pairs l r).map .state ++ (pairs l r).flatMap
    (Builder.describe (fun p => accept (l.acceptsAt p.1) (r.acceptsAt p.2)) (pairMoves alphabet l r))

theorem productBuilder_eq : productBuilder accept alphabet l r =
    Builder.ofFacts (l.start, r.start) (productFacts accept alphabet l r) := by
  rw [Builder.ofFacts, productFacts, Builder.tellAll_append, Builder.tellAll_map_state,
    Builder.tellAll_flatMap_describe]
  rfl

theorem final_mem_productFacts (hi : i < l.automaton.numStates) (hj : j < r.automaton.numStates) :
    .final (i, j) ∈ productFacts accept alphabet l r ↔
      accept (l.acceptsAt i) (r.acceptsAt j) = true := by
  rw [productFacts, List.mem_append, Builder.final_mem_flatMap_describe]
  refine (or_iff_right (by simp)).trans ?_
  exact and_iff_right (mem_pairs.mpr ⟨hi, hj⟩)

theorem transition_mem_productFacts (hi : i < l.automaton.numStates)
    (hj : j < r.automaton.numStates) : .transition (i, j) c q ∈ productFacts accept alphabet l r ↔
      c ∈ alphabet ∧ q = (l.next i c, r.next j c) := by
  rw [productFacts, List.mem_append, Builder.transition_mem_flatMap_describe, mem_pairs]
  refine (or_iff_right (by simp)).trans ?_
  rw [and_iff_right ⟨hi, hj⟩, mem_pairMoves hi hj]

/-! ## Both sides of a product -/

section Total

variable (hl : l.Total alphabet) (hr : r.Total alphabet)

include hl hr

/-- A word of the alphabet leads both sides on, and the two answers at its end decide. -/
theorem exists_leads_productFacts (hi : i < l.automaton.numStates) (hj : j < r.automaton.numStates) :
    (∃ q, Builder.Leads (productFacts accept alphabet l r) (i, j) word q ∧
        .final q ∈ productFacts accept alphabet l r) ↔
      (∀ c ∈ word, c ∈ alphabet) ∧
        accept (l.acceptsAt (l.run i word)) (r.acceptsAt (r.run j word)) = true := by
  induction word generalizing i j with
  | nil =>
    rw [Builder.exists_leads_nil_iff, final_mem_productFacts hi hj]
    simp [run]
  | cons c word ih =>
    rw [Builder.exists_leads_cons_iff, List.forall_mem_cons, and_assoc]
    simp only [transition_mem_productFacts hi hj, and_assoc, exists_and_left, exists_eq_left]
    exact and_congr_right fun _ => ih hl.next_lt hr.next_lt

theorem acceptsWord_productBuilder :
    ((productBuilder accept alphabet l r).build .canonical).acceptsWord word = true ↔
      (∀ c ∈ word, c ∈ alphabet) ∧
        accept (l.automaton.acceptsWord word) (r.automaton.acceptsWord word) = true := by
  have hside : ∀ {d : Completed}, d.Total alphabet →
      d.acceptsAt (d.run d.start word) = d.automaton.acceptsWord word := fun hd => by
    rw [Bool.eq_iff_iff, acceptsWord_iff, hd.accepts_iff]
  rw [productBuilder_eq, Builder.acceptsWord_build_ofFacts,
    exists_leads_productFacts hl hr hl.start_lt hr.start_lt, hside hl, hside hr]

end Total

end Completed

/-! ## The product of two automata -/

variable {a b : Automaton}

theorem wellFormed_product : (product accept a b).WellFormed := by
  rw [product, Completed.productBuilder_eq]
  exact (Builder.records_ofFacts _ _).wellFormed_build

theorem mem_jointAlphabet : c ∈ a.jointAlphabet b ↔ c ∈ a.alphabet ∨ c ∈ b.alphabet := by
  rw [jointAlphabet, mem_ascending, List.mem_append]

section Words

variable (ha : a.WellFormed) (hb : b.WellFormed)

include ha hb

theorem acceptsWord_product_iff : (product accept a b).acceptsWord word = true ↔
    (∀ c ∈ word, c ∈ a.jointAlphabet b) ∧
      accept (a.acceptsWord word) (b.acceptsWord word) = true := by
  refine (Completed.acceptsWord_productBuilder (total_completed ha) (total_completed hb)).trans ?_
  rw [acceptsWord_eq_of_iff (accepts_completed ha), acceptsWord_eq_of_iff (accepts_completed hb)]

/-- Words over other symbols are rejected on both sides. -/
theorem acceptsWord_product (hreject : accept false false = false) :
    (product accept a b).acceptsWord word =
      accept (a.acceptsWord word) (b.acceptsWord word) := by
  rw [Bool.eq_iff_iff, acceptsWord_product_iff ha hb]
  refine and_iff_right_of_imp fun haccept c hc => mem_jointAlphabet.mpr ?_
  refine Classical.byContradiction fun hnone => ?_
  rw [not_or] at hnone
  rw [acceptsWord_eq_false hc hnone.1, acceptsWord_eq_false hc hnone.2, hreject] at haccept
  cases haccept

end Words

/-- **Boolean operations.** The union of two well-formed automata accepts what either accepts, their
intersection what both accept, and their difference what the first accepts and the second does not. -/
theorem acceptsWord_union_intersection_difference (ha : a.WellFormed) (hb : b.WellFormed)
    (word : List Char) :
    ((a.union b).acceptsWord word = true ↔
        a.acceptsWord word = true ∨ b.acceptsWord word = true) ∧
      ((a.intersection b).acceptsWord word = true ↔
        a.acceptsWord word = true ∧ b.acceptsWord word = true) ∧
      ((a.difference b).acceptsWord word = true ↔
        a.acceptsWord word = true ∧ ¬ b.acceptsWord word = true) := by
  rw [union, intersection, difference, acceptsWord_product ha hb rfl, acceptsWord_product ha hb rfl,
    acceptsWord_product ha hb rfl]
  simp

/-- Two targets of one symbol, one of them named like the sink and accepting. -/
def sinkTargeted : Automaton :=
  empty.changeAll [.addStates ["A", "B", sinkName], .addTransition "A" 'x' "B",
    .addTransition "A" 'x' sinkName, .addTransition sinkName 'x' "A", .accept sinkName]

theorem wellFormed_sinkTargeted : sinkTargeted.WellFormed :=
  wellFormed_changeAll wellFormed_empty _

/-- One side is nondeterministic and has an accepting state named like the sink; the other one knows
another symbol, has such a state as its sink and has no initial state. -/
theorem acceptsWord_union_intersection_difference_sinks :
    (sinkTargeted.WellFormed ∧ sinkTargeted.isDeterministic = false ∧ sinkAlone.WellFormed ∧
        sinkAlone.initial = none ∧ sinkTargeted.jointAlphabet sinkAlone = ['x', 'y']) ∧
      ∀ word, ((sinkTargeted.union sinkAlone).acceptsWord word = true ↔
          sinkTargeted.acceptsWord word = true ∨ sinkAlone.acceptsWord word = true) ∧
        ((sinkTargeted.intersection sinkAlone).acceptsWord word = true ↔
          sinkTargeted.acceptsWord word = true ∧ sinkAlone.acceptsWord word = true) ∧
        ((sinkTargeted.difference sinkAlone).acceptsWord word = true ↔
          sinkTargeted.acceptsWord word = true ∧ ¬ sinkAlone.acceptsWord word = true) :=
  ⟨⟨wellFormed_sinkTargeted, by decide, wellFormed_sinkAlone, by decide, by decide +kernel⟩, fun word =>
    acceptsWord_union_intersection_difference wellFormed_sinkTargeted wellFormed_sinkAlone word⟩

end RegularSets.Automaton
