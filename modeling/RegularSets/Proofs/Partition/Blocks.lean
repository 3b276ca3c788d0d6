import Mathlib.Data.List.Nodup
import RegularSets.Proofs.Partition

/-!
# Blocks after any splits

Every partition starts as one block and changes only by splits of existing blocks, each by a predicate
of its own (`Arises`). Here the result is read off the blocks alone, as lists of elements. Whatever was
split before, the numbers are shared out among the blocks from 1 on (`SharesOut`). One more split
touches a single block: the others keep their places in the segment, so their elements come in the same
order as before, and within the block the elements are only put apart (`PutsApart`).
-/

namespace RegularSets.Partition

/-- The partitions of the numbers below `n` that come from one block by splitting blocks. -/
inductive Arises (n : Nat) : Partition → Prop
  | whole : Arises n (whole n)
  | refine {p : Partition} {i : Nat} (before : Arises n p) (block : i < p.numBlocks)
      (keep : Nat → Bool) : Arises n (p.refine i keep).1

/-- Block 0 holds nothing and every other block something, and each number below `n` is in one of them,
once, namely in the one whose id it has. -/
structure SharesOut (p : Partition) (n : Nat) : Prop where
  elements_zero : p.elements 0 = []
  elements_ne_nil : ∀ i, 0 < i → i < p.numBlocks → p.elements i ≠ []
  disjoint : ∀ i j, i ≠ j → (p.elements i).Disjoint (p.elements j)
  perm : ((List.range' 1 p.index).flatMap p.elements).Perm (List.range n)
  blockOf_eq_iff : ∀ x < n, ∀ i, p.blockOf x = i ↔ x ∈ p.elements i

/-- What splitting block `i` of `p` by a predicate leads to. The other blocks stay as they are. If the
block holds both `kept` and `moved` elements, the former stay and the latter become a new last block;
otherwise there is no new block, and 0 stands for the part that is empty. -/
structure PutsApart (p : Partition) (i : Nat) (kept moved : List Nat) (result : Partition × Parts) :
    Prop where
  others : ∀ j, j < p.numBlocks → j ≠ i → result.1.elements j = p.elements j
  both : kept ≠ [] → moved ≠ [] → result.2 = ⟨i, p.numBlocks⟩ ∧
    result.1.numBlocks = p.numBlocks + 1 ∧ (result.1.elements i).Perm kept ∧
      (result.1.elements p.numBlocks).Perm moved
  one : kept = [] ∨ moved = [] → result.2 = (if kept = [] then ⟨0, i⟩ else ⟨i, 0⟩) ∧
    result.1.numBlocks = p.numBlocks ∧ (result.1.elements i).Perm (p.elements i)

variable {p q : Partition} {n i j : Nat} {keep : Nat → Bool}

theorem valid_of_arises (h : Arises n p) : p.Valid n := by
  induction h with
  | whole => exact valid_whole n
  | refine before block keep ih => exact valid_refine ih block keep

theorem filter_ne_nil {l : List Nat} (h : ∃ x ∈ l, keep x = true) : l.filter keep ≠ [] := by
  obtain ⟨x, hx, hkeep⟩ := h
  exact List.ne_nil_of_mem (List.mem_filter.mpr ⟨hx, hkeep⟩)

/-! ## How the numbers are shared out -/

namespace Valid

theorem disjoint_elements (h : p.Valid n) (hne : i ≠ j) :
    (p.elements i).Disjoint (p.elements j) := by
  intro x hi hj
  exact hne ((h.mem_elements.mp hi).2.symm.trans (h.mem_elements.mp hj).2)

/-- Block by block the elements are the numbers below `n`, each once. -/
theorem perm_flatMap_elements (h : p.Valid n) :
    ((List.range' 1 p.index).flatMap p.elements).Perm (List.range n) := by
  have hnodup : ((List.range' 1 p.index).flatMap p.elements).Nodup :=
    List.nodup_flatMap.mpr ⟨fun i _ => h.nodup_elements,
      List.Pairwise.imp (fun hne => h.disjoint_elements hne) (List.nodup_range' ..)⟩
  refine (List.perm_ext_iff_of_nodup hnodup List.nodup_range).mpr fun x => ?_
  rw [List.mem_flatMap, List.mem_range]
  constructor
  · intro ⟨i, _, hx⟩
    exact (h.mem_elements.mp hx).1
  · intro hx
    have hpos := h.blockOf_pos hx
    have hlt := h.blockOf_lt hx
    refine ⟨p.blockOf x, ?_, h.mem_elements.mpr ⟨hx, rfl⟩⟩
    rw [List.mem_range'_1, index]
    omega

theorem sharesOut (h : p.Valid n) : p.SharesOut n :=
  ⟨h.elements_zero, fun _ hpos hi => h.elements_ne_nil hpos hi, fun _ _ hne => h.disjoint_elements hne,
    h.perm_flatMap_elements, fun _ hx _ => by simp [h.mem_elements, hx]⟩

/-! ## One more split -/

/-- The slices of two blocks do not overlap, since a number stands in one block only. -/
theorem outside_slice (h : p.Valid n) (hi : i < p.numBlocks) (hj : j < p.numBlocks) (hne : j ≠ i)
    {place : Nat} (hstart : (p.slice j).start ≤ place) (hstop : place < (p.slice j).stop) :
    place < (p.slice i).start ∨ (p.slice i).stop ≤ place := by
  have hle := h.stop_le j
  obtain ⟨x, hx⟩ : ∃ x, p.segment[place]? = some x :=
    ⟨_, Array.getElem?_eq_getElem (h.size_segment.symm ▸ Nat.lt_of_lt_of_le hstop hle)⟩
  have hxj := (h.blockOf_eq_iff hx hj).mpr ⟨hstart, hstop⟩
  refine Decidable.byContradiction fun hin => hne ?_
  rw [← hxj]
  exact (h.blockOf_eq_iff hx hi).mpr ⟨by omega, by omega⟩

/-- Two partitions with the same slice of a block, and the same numbers in it, have the same elements
of that block. -/
theorem elements_congr (hp : p.Valid n) (hq : q.Valid n) (hslice : q.slice j = p.slice j)
    (hplace : ∀ place, (p.slice j).start ≤ place → place < (p.slice j).stop →
      q.segment[place]? = p.segment[place]?) : q.elements j = p.elements j := by
  rw [elements, elements, hslice]
  refine congrArg Array.toList (Array.ext_getElem? fun k => ?_)
  rw [Array.getElem?_extract, Array.getElem?_extract, hp.size_segment, hq.size_segment]
  split
  · exact hplace _ (Nat.le_add_right _ _) (by omega)
  · rfl

theorem elements_refine_of_ne (h : p.Valid n) (hi : i < p.numBlocks) (hj : j < p.numBlocks)
    (hne : j ≠ i) : (p.refine i keep).1.elements j = p.elements j := by
  have hvalid := valid_refine h hi keep
  have hg := h.sorted_sweep i keep
  have hslice : (p.refine i keep).1.slice j = p.slice j ∧ (p.refine i keep).1.segment =
      (Gathering.sweep keep p.segment (p.slice i)).segment := by
    rw [refine_eq]
    dsimp only
    split
    · exact ⟨rfl, rfl⟩
    · split
      · exact ⟨rfl, rfl⟩
      · refine ⟨?_, rfl⟩
        rw [slice_cut hi, if_neg (Nat.ne_of_lt hj), if_neg hne]
  refine h.elements_congr hvalid hslice.1 fun place hstart hstop => ?_
  rw [hslice.2]
  exact hg.outside (h.outside_slice hi hj hne hstart hstop)

/-- Blocks are known by their elements: to show what they are it is enough to know the ids. -/
theorem perm_elements (h : q.Valid n) {l : List Nat} (hl : l.Nodup)
    (hmem : ∀ x, x ∈ l ↔ x < n ∧ q.blockOf x = j) : (q.elements j).Perm l :=
  (List.perm_ext_iff_of_nodup h.nodup_elements hl).mpr fun x => by rw [h.mem_elements, hmem]

theorem putsApart (h : p.Valid n) (hi : i < p.numBlocks) (keep : Nat → Bool) :
    PutsApart p i ((p.elements i).filter keep) ((p.elements i).filter (!keep ·)) (p.refine i keep) := by
  have hvalid := valid_refine h hi keep
  have hsplits := splits_refine h hi keep
  have hothers : ∀ j, j < p.numBlocks → j ≠ i → (p.refine i keep).1.elements j = p.elements j :=
    fun j hj hne => h.elements_refine_of_ne hi hj hne
  generalize p.refine i keep = result at hvalid hsplits hothers ⊢
  cases hsplits with
  | none hnone hnum hblock =>
    have hkept : (p.elements i).filter keep = [] :=
      List.filter_eq_nil_iff.mpr fun x hx => by rw [hnone x hx]; exact Bool.false_ne_true
    refine ⟨hothers, fun hne => absurd hkept hne, fun _ => ⟨by rw [if_pos hkept], hnum, ?_⟩⟩
    exact hvalid.perm_elements h.nodup_elements fun x => by rw [h.mem_elements, hblock]
  | all hsome hall hnum hblock =>
    have hmoved : (p.elements i).filter (!keep ·) = [] :=
      List.filter_eq_nil_iff.mpr fun x hx => by rw [hall x hx]; exact Bool.false_ne_true
    have hkept := filter_ne_nil hsome
    refine ⟨hothers, fun _ hne => absurd hmoved hne, fun _ => ⟨by rw [if_neg hkept], hnum, ?_⟩⟩
    exact hvalid.perm_elements h.nodup_elements fun x => by rw [h.mem_elements, hblock]
  | @both q hsome hother hnum hblock =>
    have hkept := filter_ne_nil hsome
    have hmoved : (p.elements i).filter (!keep ·) ≠ [] :=
      filter_ne_nil (hother.imp fun x hx => ⟨hx.1, by rw [hx.2]; rfl⟩)
    refine ⟨hothers, fun _ _ => ⟨rfl, hnum, ?_, ?_⟩, fun hempty => ?_⟩
    · refine hvalid.perm_elements (h.nodup_elements.filter _) fun x => ?_
      rw [List.mem_filter, h.mem_elements, and_assoc]
      refine and_congr_right fun hx => ?_
      rw [hblock x hx]
      split
      · next hc => simp [hc.2, Nat.ne_of_gt hi]
      · next hc => simpa using hc
    · refine hvalid.perm_elements (h.nodup_elements.filter _) fun x => ?_
      rw [List.mem_filter, h.mem_elements, and_assoc]
      refine and_congr_right fun hx => ?_
      have hlt := h.blockOf_lt hx
      rw [hblock x hx]
      split
      · next hc => simp [hc]
      · next hc => simpa [Nat.ne_of_lt hlt] using hc
    · rcases hempty with hempty | hempty
      · exact absurd hempty hkept
      · exact absurd hempty hmoved

end Valid

/-- **Splitting blocks.** Whatever blocks of a single one were split by whatever predicates, block 0 is
empty and the numbers are shared out among the others. Splitting any block once more by any predicate
leaves the other blocks as they are, and puts the elements that satisfy the predicate and the others apart
if there are both. -/
theorem refine_spec (n : Nat) (p : Partition) (h : Arises n p) :
    p.SharesOut n ∧ ∀ i < p.numBlocks, ∀ keep : Nat → Bool,
      PutsApart p i ((p.elements i).filter keep) ((p.elements i).filter (!keep ·)) (p.refine i keep) :=
  ⟨(valid_of_arises h).sharesOut, fun _ hi keep => (valid_of_arises h).putsApart hi keep⟩

/-- The numbers below 12: the odd ones, the multiples of 3 among the even ones, and the other even
ones. -/
def thirds : Partition :=
  (((whole 12).refine 1 (· % 2 = 1)).1.refine 2 (· % 3 = 0)).1

theorem arises_thirds : Arises 12 thirds :=
  (Arises.whole.refine (by decide) _).refine (by decide +kernel) _

theorem refine_spec_thirds :
    Arises 12 thirds ∧ thirds.elements 1 = [1, 3, 5, 7, 9, 11] ∧ thirds.elements 2 = [6, 0] ∧
      thirds.SharesOut 12 ∧ ∀ i < thirds.numBlocks, ∀ keep : Nat → Bool,
        PutsApart thirds i ((thirds.elements i).filter keep) ((thirds.elements i).filter (!keep ·))
          (thirds.refine i keep) :=
  ⟨arises_thirds, by decide +kernel, by decide +kernel, refine_spec 12 thirds arises_thirds⟩

end RegularSets.Partition
