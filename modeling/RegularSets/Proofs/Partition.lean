import Mathlib.Data.Finset.Card
import Mathlib.Data.Finset.Range
import RegularSets.Partition

/-!
# Splitting a block in place

`Gathering.sweep` swaps the numbers of a slice that satisfy a predicate to the front. Its loop keeps
the invariant `Gathering.Sorted`: the numbers looked at so far are sorted by the predicate, and
nothing else has moved.

`Partition.Valid` says how the three arrays of a partition belong together: the segment holds every
number once, and a place belongs to the slice of a block exactly if the number there has that block's
id. The main statement is `refine_cases`, all that splitting a block can do. Whoever uses a partition
needs it and `mem_elements`, and no array.
-/

namespace RegularSets

/-- At a place of an array a look-up does not fall back. -/
theorem getElem?_eq_some_getD {α : Type} {xs : Array α} {i : Nat} (h : i < xs.size) (fallback : α) :
    xs[i]? = some (xs.getD i fallback) := by
  simp [h]

namespace Gathering

/-- The places from `start` up to `place` have been looked at: those before the split hold numbers
that satisfy the predicate, the others do not, and all other places are as they were. -/
structure Sorted (keep : Nat → Bool) (segment : Array Nat) (start place : Nat) (g : Gathering) :
    Prop where
  perm : g.segment.toList.Perm segment.toList
  start_le : start ≤ g.split
  split_le : g.split ≤ place
  outside : ∀ {q : Nat}, q < start ∨ place ≤ q → g.segment[q]? = segment[q]?
  kept : ∀ {q x : Nat}, start ≤ q → q < g.split → g.segment[q]? = some x → keep x = true
  moved : ∀ {q x : Nat}, g.split ≤ q → q < place → g.segment[q]? = some x → keep x = false

variable {keep : Nat → Bool} {segment : Array Nat} {start place : Nat} {g : Gathering}

theorem getElem?_swapIfInBounds {xs : Array Nat} {i j q : Nat} (hi : i < xs.size)
    (hj : j < xs.size) :
    (xs.swapIfInBounds i j)[q]? =
      if j = q then xs[i]? else if i = q then xs[j]? else xs[q]? := by
  rw [Array.swapIfInBounds_def, dif_pos hi, dif_pos hj, Array.getElem?_swap]
  simp only [Array.getElem?_eq_getElem hi, Array.getElem?_eq_getElem hj]

theorem Sorted.size_eq (h : Sorted keep segment start place g) :
    g.segment.size = segment.size := by
  simpa using h.perm.length_eq

/-- Looking at one more number keeps the invariant. A number that satisfies the predicate changes
places with the first one that does not. -/
theorem Sorted.visit (h : Sorted keep segment start place g) (hlt : place < segment.size) :
    Sorted keep segment start (place + 1) (g.visit keep place) := by
  have hplace : place < g.segment.size := h.size_eq ▸ hlt
  have hsplit : g.split < g.segment.size := Nat.lt_of_le_of_lt h.split_le hplace
  have hstart := h.start_le
  have hle := h.split_le
  by_cases hkeep : keep g.segment[place] = true
  · have hvisit : g.visit keep place =
        { segment := g.segment.swapIfInBounds place g.split, split := g.split + 1 } := by
      simp [Gathering.visit, hplace, hkeep]
    rw [hvisit]
    refine ⟨?_, Nat.le_succ_of_le hstart, Nat.succ_le_succ hle, fun {q} hq => ?_,
      fun {q x} hsq hqs hx => ?_, fun {q x} hsq hqs hx => ?_⟩
    · refine List.Perm.trans ?_ h.perm
      rw [Array.swapIfInBounds_def, dif_pos hplace, dif_pos hsplit]
      exact (Array.swap_perm hplace hsplit).toList
    · rw [getElem?_swapIfInBounds hplace hsplit, if_neg (by omega), if_neg (by omega)]
      exact h.outside (by omega)
    · have hqs : q < g.split + 1 := hqs
      rw [getElem?_swapIfInBounds hplace hsplit] at hx
      split at hx
      · rw [Array.getElem?_eq_getElem hplace] at hx
        exact Option.some.inj hx ▸ hkeep
      · rw [if_neg (by omega)] at hx
        exact h.kept hsq (by omega) hx
    · have hsq : g.split + 1 ≤ q := hsq
      rw [getElem?_swapIfInBounds hplace hsplit, if_neg (by omega)] at hx
      split at hx
      · exact h.moved (Nat.le_refl _) (by omega) hx
      · exact h.moved (by omega) (by omega) hx
  · rw [Bool.not_eq_true] at hkeep
    have hvisit : g.visit keep place = g := by simp [Gathering.visit, hplace, hkeep]
    rw [hvisit]
    refine ⟨h.perm, hstart, Nat.le_succ_of_le hle, fun {q} hq => h.outside (by omega), h.kept,
      fun {q x} hsq hqs hx => ?_⟩
    by_cases hq : q = place
    · subst hq
      rw [Array.getElem?_eq_getElem hplace] at hx
      exact Option.some.inj hx ▸ hkeep
    · exact h.moved hsq (by omega) hx

theorem Sorted.foldl_visit {m : Nat} (h : Sorted keep segment start place g)
    (hle : place + m ≤ segment.size) :
    Sorted keep segment start (place + m)
      ((List.range' place m).foldl (Gathering.visit keep) g) := by
  induction m generalizing place g with
  | zero => exact h
  | succ m ih =>
    rw [List.range'_succ, List.foldl_cons, show place + (m + 1) = place + 1 + m by omega]
    exact ih (h.visit (by omega)) (by omega)

/-- After the whole slice the numbers in it are sorted by the predicate. -/
theorem sorted_sweep (keep : Nat → Bool) {segment : Array Nat} {s : Slice} (hs : s.start ≤ s.stop)
    (hstop : s.stop ≤ segment.size) :
    Sorted keep segment s.start s.stop (sweep keep segment s) := by
  have hnone : Sorted keep segment s.start s.start { segment, split := s.start } :=
    ⟨List.Perm.refl _, Nat.le_refl _, Nat.le_refl _, fun _ => rfl,
      fun hle hlt => absurd hlt (Nat.not_lt.mpr hle), fun hle hlt => absurd hlt (Nat.not_lt.mpr hle)⟩
  have hall := hnone.foldl_visit (m := s.stop - s.start) (by omega)
  rwa [Nat.add_sub_cancel' hs] at hall

end Gathering

namespace Partition

/-- The parts of a partition of the numbers below `n` fit together. -/
structure Valid (p : Partition) (n : Nat) : Prop where
  perm : p.segment.toList.Perm (List.range n)
  size_ids : p.ids.size = n
  numBlocks_pos : 0 < p.numBlocks
  slice_zero : p.slice 0 = ⟨0, 0⟩
  start_lt_stop : ∀ {i : Nat}, 0 < i → i < p.numBlocks → (p.slice i).start < (p.slice i).stop
  stop_le : ∀ i : Nat, (p.slice i).stop ≤ n
  blockOf_lt : ∀ {x : Nat}, x < n → p.blockOf x < p.numBlocks
  blockOf_eq_iff : ∀ {q x i : Nat}, p.segment[q]? = some x → i < p.numBlocks →
    (p.blockOf x = i ↔ (p.slice i).start ≤ q ∧ q < (p.slice i).stop)

variable {p : Partition} {n i : Nat}

/-! ## Elements -/

theorem getElem?_blocks (h : i < p.numBlocks) : p.blocks[i]? = some (p.slice i) :=
  getElem?_eq_some_getD h ⟨0, 0⟩

theorem slice_of_le (h : p.numBlocks ≤ i) : p.slice i = ⟨0, 0⟩ := by
  have : p.blocks[i]? = none := Array.getElem?_eq_none h
  simp [slice, this]

theorem mem_elements_iff_place {x : Nat} :
    x ∈ p.elements i ↔
      ∃ q, (p.slice i).start ≤ q ∧ q < (p.slice i).stop ∧ p.segment[q]? = some x := by
  rw [elements, Array.mem_toList_iff, Array.mem_iff_getElem?]
  simp only [Array.getElem?_extract]
  constructor
  · intro h
    obtain ⟨k, hk⟩ := h
    split at hk
    · exact ⟨(p.slice i).start + k, by omega, by omega, hk⟩
    · cases hk
  · intro h
    obtain ⟨q, hstart, hstop, hq⟩ := h
    obtain ⟨hsize, -⟩ := Array.getElem?_eq_some_iff.mp hq
    exact ⟨q - (p.slice i).start, by rw [if_pos (by omega), Nat.add_sub_cancel' hstart, hq]⟩

namespace Valid

theorem size_segment (h : p.Valid n) : p.segment.size = n := by
  simpa using h.perm.length_eq

theorem nodup_segment (h : p.Valid n) : p.segment.toList.Nodup :=
  h.perm.nodup_iff.mpr List.nodup_range

theorem lt_of_place (h : p.Valid n) {q x : Nat} (hq : p.segment[q]? = some x) : x < n := by
  have hx : x ∈ p.segment.toList :=
    List.mem_iff_getElem?.mpr ⟨q, by rwa [Array.getElem?_toList]⟩
  exact List.mem_range.mp (h.perm.mem_iff.mp hx)

theorem exists_place (h : p.Valid n) {x : Nat} (hx : x < n) :
    ∃ q : Nat, p.segment[q]? = some x := by
  obtain ⟨q, hq⟩ := List.mem_iff_getElem?.mp (h.perm.mem_iff.mpr (List.mem_range.mpr hx))
  exact ⟨q, by rwa [Array.getElem?_toList] at hq⟩

theorem getElem?_ids (h : p.Valid n) {x : Nat} (hx : x < n) : p.ids[x]? = some (p.blockOf x) :=
  getElem?_eq_some_getD (h.size_ids.symm ▸ hx) 0

/-- A number stands at one place only. -/
theorem place_unique (h : p.Valid n) {q q' x : Nat} (hq : p.segment[q]? = some x)
    (hq' : p.segment[q']? = some x) : q = q' := by
  rw [← Array.getElem?_toList] at hq hq'
  obtain ⟨hlt, -⟩ := List.getElem?_eq_some_iff.mp hq
  exact (List.getElem?_inj hlt h.nodup_segment).mp (hq.trans hq'.symm)

theorem start_le_stop (h : p.Valid n) (i : Nat) : (p.slice i).start ≤ (p.slice i).stop := by
  rcases Nat.eq_zero_or_pos i with rfl | hpos
  · simp [h.slice_zero]
  · rcases Nat.lt_or_ge i p.numBlocks with hi | hi
    · exact Nat.le_of_lt (h.start_lt_stop hpos hi)
    · simp [slice_of_le hi]

/-- The elements of a block are the numbers with its id. -/
theorem mem_elements (h : p.Valid n) {x : Nat} :
    x ∈ p.elements i ↔ x < n ∧ p.blockOf x = i := by
  rw [mem_elements_iff_place]
  constructor
  · rintro ⟨q, hstart, hstop, hq⟩
    have hi : i < p.numBlocks := by
      rcases Nat.lt_or_ge i p.numBlocks with hi | hi
      · exact hi
      · rw [slice_of_le hi] at hstop
        exact absurd hstop (Nat.not_lt_zero q)
    exact ⟨h.lt_of_place hq, (h.blockOf_eq_iff hq hi).mpr ⟨hstart, hstop⟩⟩
  · rintro ⟨hx, rfl⟩
    obtain ⟨q, hq⟩ := h.exists_place hx
    obtain ⟨hstart, hstop⟩ := (h.blockOf_eq_iff hq (h.blockOf_lt hx)).mp rfl
    exact ⟨q, hstart, hstop, hq⟩

/-- No number has the id of the empty block. -/
theorem blockOf_pos (h : p.Valid n) {x : Nat} (hx : x < n) : 0 < p.blockOf x := by
  refine Nat.pos_of_ne_zero fun hzero => ?_
  obtain ⟨q, hq⟩ := h.exists_place hx
  have := (h.blockOf_eq_iff hq h.numBlocks_pos).mp hzero
  simp [h.slice_zero] at this

theorem nodup_elements (h : p.Valid n) : (p.elements i).Nodup := by
  rw [elements, Array.toList_extract, List.extract_eq_take_drop]
  exact ((List.take_sublist _ _).trans (List.drop_sublist _ _)).nodup h.nodup_segment

theorem length_elements (h : p.Valid n) : (p.elements i).length = p.blockSize i := by
  have := h.stop_le i
  rw [elements, Array.length_toList, Array.size_extract, h.size_segment, blockSize]
  omega

theorem elements_zero (h : p.Valid n) : p.elements 0 = [] := by
  simp [elements, h.slice_zero]

theorem elements_ne_nil (h : p.Valid n) (hpos : 0 < i) (hi : i < p.numBlocks) :
    p.elements i ≠ [] := by
  have hlt := h.start_lt_stop hpos hi
  have hlen := h.length_elements (i := i)
  intro hnil
  rw [hnil, blockSize, List.length_nil] at hlen
  omega

end Valid

/-! ## The number of blocks -/

namespace Valid

/-- Every block but the first holds something, so there are no more of them than numbers. -/
theorem numBlocks_le (h : p.Valid n) : p.numBlocks ≤ n + 1 := by
  have hcard : (Finset.range p.index).card ≤ (Finset.range n).card := by
    refine Finset.card_le_card_of_injOn (fun k => (p.slice (k + 1)).start) ?_ ?_
    · intro k hk
      have hk' : k + 1 < p.numBlocks := by simp [index] at hk; omega
      have hlt := h.start_lt_stop (i := k + 1) (by omega) hk'
      have hle := h.stop_le (k + 1)
      simp only [Finset.coe_range, Set.mem_Iio]
      omega
    · intro k hk l hl heq
      have hk' : k + 1 < p.numBlocks := by simp [index] at hk; omega
      have hl' : l + 1 < p.numBlocks := by simp [index] at hl; omega
      have hlt := h.start_lt_stop (i := k + 1) (by omega) hk'
      have hlt' := h.start_lt_stop (i := l + 1) (by omega) hl'
      have hle := h.stop_le (k + 1)
      have hsize := h.size_segment
      obtain ⟨x, hx⟩ : ∃ x, p.segment[(p.slice (k + 1)).start]? = some x :=
        ⟨_, Array.getElem?_eq_getElem (by omega)⟩
      have hbk := (h.blockOf_eq_iff hx hk').mpr ⟨Nat.le_refl _, hlt⟩
      have heq : (p.slice (k + 1)).start = (p.slice (l + 1)).start := heq
      have hbl := (h.blockOf_eq_iff hx hl').mpr ⟨by omega, by omega⟩
      omega
  simp only [Finset.card_range, index] at hcard
  omega

/-- Every block but the first is the block of some number. -/
theorem exists_blockOf_eq (h : p.Valid n) (hpos : 0 < i) (hi : i < p.numBlocks) :
    ∃ x, x < n ∧ p.blockOf x = i := by
  obtain ⟨x, hx⟩ := List.exists_mem_of_ne_nil _ (h.elements_ne_nil hpos hi)
  exact ⟨x, h.mem_elements.mp hx⟩

/-- The representative of a block is in the block. -/
theorem representative_mem (h : p.Valid n) {x : Nat} (hx : x < n) :
    p.representative (p.blockOf x) < n ∧
      p.blockOf (p.representative (p.blockOf x)) = p.blockOf x := by
  have hmem : p.representative (p.blockOf x) ∈ p.elements (p.blockOf x) := by
    rw [representative]
    cases hmin : (p.elements (p.blockOf x)).min? with
    | none =>
      have hx := h.mem_elements.mpr ⟨hx, rfl⟩
      rw [List.min?_eq_none_iff.mp hmin] at hx
      cases hx
    | some y => exact List.min?_mem hmin
  exact h.mem_elements.mp hmem

/-- If there are as many blocks as numbers, every block holds one number. -/
theorem blockOf_injective (h : p.Valid n) (hindex : p.index = n) {x y : Nat} (hx : x < n)
    (hy : y < n) (hxy : p.blockOf x = p.blockOf y) : x = y := by
  have himage : (Finset.range n).image p.blockOf = (Finset.range n).image (· + 1) := by
    ext i
    simp only [Finset.mem_image, Finset.mem_range]
    constructor
    · rintro ⟨x, hx, rfl⟩
      have := h.blockOf_pos hx
      have := h.blockOf_lt hx
      exact ⟨p.blockOf x - 1, by rw [index] at hindex; omega, by omega⟩
    · rintro ⟨k, hk, rfl⟩
      exact h.exists_blockOf_eq (Nat.succ_pos k) (by rw [index] at hindex; omega)
  have hcard : ((Finset.range n).image p.blockOf).card = (Finset.range n).card := by
    rw [himage, Finset.card_image_of_injective _ fun _ _ => Nat.succ.inj]
  exact Finset.card_image_iff.mp hcard (Finset.mem_coe.mpr (Finset.mem_range.mpr hx))
    (Finset.mem_coe.mpr (Finset.mem_range.mpr hy)) hxy

end Valid

/-! ## One block -/

theorem valid_whole (n : Nat) : (whole n).Valid n := by
  have hslice : ∀ i, (whole n).slice i = if i = 1 then ⟨0, n⟩ else ⟨0, 0⟩ := by
    intro i
    unfold slice whole
    rcases Nat.eq_zero_or_pos n with rfl | hn
    · match i with
      | 0 => rfl
      | 1 => rfl
      | i + 2 => simp
    · rw [if_neg (Nat.ne_of_gt hn)]
      match i with
      | 0 => rfl
      | 1 => rfl
      | i + 2 => simp
  have hblocks : (whole n).numBlocks = if n = 0 then 1 else 2 := by
    unfold numBlocks whole
    split <;> rfl
  have hblockOf : ∀ {x}, x < n → (whole n).blockOf x = 1 := by
    intro x hx
    simp [blockOf, whole, hx]
  refine ⟨by simp [whole], by simp [whole], ?_, by simp [hslice], fun {i} hpos hi => ?_,
    fun i => ?_, fun {x} hx => ?_, fun {q x i} hq hi => ?_⟩
  · rw [hblocks]; split <;> omega
  · rw [hblocks] at hi
    rw [hslice]
    split at hi <;> split <;> simp only <;> omega
  · rw [hslice]
    split <;> simp
  · rw [hblockOf hx, hblocks, if_neg (by omega)]; omega
  · have hlt : q < n ∧ q = x := by simpa [whole, Array.getElem?_range] using hq
    obtain ⟨hlt, rfl⟩ := hlt
    rw [hblockOf hlt, hslice]
    split <;> simp only <;> omega

/-! ## Splitting a block -/

theorem getElem?_foldl_setIfInBounds (xs : List Nat) (ids : Array Nat) (j y : Nat) :
    (xs.foldl (fun ids x => ids.setIfInBounds x j) ids)[y]? =
      if y ∈ xs ∧ y < ids.size then some j else ids[y]? := by
  induction xs generalizing ids with
  | nil => simp
  | cons x xs ih =>
    rw [List.foldl_cons, ih, Array.size_setIfInBounds, Array.getElem?_setIfInBounds]
    by_cases hy : y < ids.size
    · by_cases hmem : y ∈ xs
      · simp [hmem, hy]
      · by_cases hxy : x = y
        · subst hxy; simp [hmem, hy]
        · simp [hmem, hy, hxy, Ne.symm hxy]
    · by_cases hxy : x = y
      · subst hxy; simp [hy]
      · simp [hy, hxy]

theorem size_foldl_setIfInBounds (xs : List Nat) (ids : Array Nat) (j : Nat) :
    (xs.foldl (fun ids x => ids.setIfInBounds x j) ids).size = ids.size := by
  induction xs generalizing ids with
  | nil => rfl
  | cons x xs ih => rw [List.foldl_cons, ih, Array.size_setIfInBounds]

/-- Gathering the numbers of a block moves them within its slice, so the arrays still belong
together. -/
theorem Valid.gather (h : p.Valid n) (hi : i < p.numBlocks) {keep : Nat → Bool} {g : Gathering}
    (hg : g.Sorted keep p.segment (p.slice i).start (p.slice i).stop) :
    ({ p with segment := g.segment } : Partition).Valid n := by
  have hperm : g.segment.toList.Perm (List.range n) := hg.perm.trans h.perm
  refine ⟨hperm, h.size_ids, h.numBlocks_pos, h.slice_zero, h.start_lt_stop, h.stop_le,
    h.blockOf_lt, fun {q x j} hq hj => ?_⟩
  show p.blockOf x = j ↔ (p.slice j).start ≤ q ∧ q < (p.slice j).stop
  by_cases hin : (p.slice i).start ≤ q ∧ q < (p.slice i).stop
  · -- the number stood somewhere in the same slice before, since nothing else has moved
    have hx : x ∈ g.segment.toList :=
      List.mem_iff_getElem?.mpr ⟨q, by rwa [Array.getElem?_toList]⟩
    obtain ⟨q', hq'⟩ := List.mem_iff_getElem?.mp (hg.perm.mem_iff.mp hx)
    rw [Array.getElem?_toList] at hq'
    have hin' : (p.slice i).start ≤ q' ∧ q' < (p.slice i).stop := by
      refine Decidable.byContradiction fun hout => ?_
      have hsame : g.segment[q']? = some x := by rw [hg.outside (by omega), hq']
      rw [← Array.getElem?_toList] at hq hsame
      obtain ⟨hlt, -⟩ := List.getElem?_eq_some_iff.mp hq
      have := (List.getElem?_inj hlt (hperm.nodup_iff.mpr List.nodup_range)).mp
        (hq.trans hsame.symm)
      omega
    have hblock : p.blockOf x = i := (h.blockOf_eq_iff hq' hi).mpr hin'
    obtain ⟨y, hy⟩ : ∃ y, p.segment[q]? = some y := by
      have := h.stop_le i
      exact ⟨_, Array.getElem?_eq_getElem (h.size_segment.symm ▸ by omega)⟩
    have hyi : p.blockOf y = i := (h.blockOf_eq_iff hy hi).mpr hin
    rw [← h.blockOf_eq_iff hy hj, hblock, hyi]
  · have hsame : p.segment[q]? = some x := by rw [← hg.outside (by omega), hq]
    exact h.blockOf_eq_iff hsame hj

/-- All that splitting block `i` of `p` by a predicate can lead to: either no element of the block
satisfies the predicate, or all of them do, and then every number keeps its block; or both parts hold
something, and exactly the elements that do not satisfy it move to a new last block. -/
inductive Splits (p : Partition) (n i : Nat) (keep : Nat → Bool) : Partition × Parts → Prop
  | none {q : Partition} (none : ∀ x ∈ p.elements i, keep x = false)
      (numBlocks : q.numBlocks = p.numBlocks) (blockOf : ∀ x, q.blockOf x = p.blockOf x) :
      Splits p n i keep (q, ⟨0, i⟩)
  | all {q : Partition} (some : ∃ x ∈ p.elements i, keep x = true)
      (all : ∀ x ∈ p.elements i, keep x = true) (numBlocks : q.numBlocks = p.numBlocks)
      (blockOf : ∀ x, q.blockOf x = p.blockOf x) : Splits p n i keep (q, ⟨i, 0⟩)
  | both {q : Partition} (some : ∃ x ∈ p.elements i, keep x = true)
      (other : ∃ x ∈ p.elements i, keep x = false) (numBlocks : q.numBlocks = p.numBlocks + 1)
      (blockOf : ∀ x < n, q.blockOf x =
        if p.blockOf x = i ∧ keep x = false then p.numBlocks else p.blockOf x) :
      Splits p n i keep (q, ⟨i, p.numBlocks⟩)

section Cut

variable {keep : Nat → Bool} {g : Gathering}

/-- The partition in which the part of block `i` after the split is a block of its own. -/
def cut (p : Partition) (i : Nat) (g : Gathering) : Partition :=
  { blocks := (p.blocks.setIfInBounds i ⟨(p.slice i).start, g.split⟩).push ⟨g.split, (p.slice i).stop⟩
    segment := g.segment
    ids := (g.segment.extract g.split (p.slice i).stop).foldl
      (fun ids x => ids.setIfInBounds x p.numBlocks) p.ids }

theorem numBlocks_cut : (p.cut i g).numBlocks = p.numBlocks + 1 := by
  simp [cut, numBlocks]

theorem slice_cut (hi : i < p.numBlocks) (j : Nat) :
    (p.cut i g).slice j =
      if j = p.numBlocks then ⟨g.split, (p.slice i).stop⟩
      else if j = i then ⟨(p.slice i).start, g.split⟩ else p.slice j := by
  simp only [slice, cut, Array.getD_eq_getD_getElem?, Array.getElem?_push,
    Array.size_setIfInBounds, Array.getElem?_setIfInBounds, numBlocks] at hi ⊢
  by_cases hj : j = p.blocks.size
  · simp [hj]
  · by_cases hji : j = i
    · subst hji; simp [hj, hi]
    · simp [hj, hji, Ne.symm hji]

/-- Behind the split stand the elements of the block that do not satisfy the predicate. -/
theorem mem_behind_iff (h : p.Valid n) (hi : i < p.numBlocks)
    (hg : g.Sorted keep p.segment (p.slice i).start (p.slice i).stop) {x : Nat} (hx : x < n) :
    x ∈ (g.segment.extract g.split (p.slice i).stop).toList ↔ p.blockOf x = i ∧ keep x = false := by
  have hgather := h.gather hi hg
  have hstart := hg.start_le
  obtain ⟨q, hq⟩ := hgather.exists_place hx
  have hblock : p.blockOf x = i ↔ (p.slice i).start ≤ q ∧ q < (p.slice i).stop :=
    hgather.blockOf_eq_iff hq hi
  have hplace : x ∈ (g.segment.extract g.split (p.slice i).stop).toList ↔
      g.split ≤ q ∧ q < (p.slice i).stop := by
    have hiff := mem_elements_iff_place (x := x)
      (p := { blocks := #[⟨g.split, (p.slice i).stop⟩], segment := g.segment, ids := #[] }) (i := 0)
    refine hiff.trans ⟨?_, fun hle => ⟨q, hle.1, hle.2, hq⟩⟩
    rintro ⟨q', hstart', hstop', hq'⟩
    rw [hgather.place_unique hq hq']
    exact ⟨hstart', hstop'⟩
  rw [hplace, hblock]
  constructor
  · intro ⟨hle, hlt⟩
    exact ⟨⟨by omega, hlt⟩, hg.moved hle hlt hq⟩
  · intro ⟨⟨hle, hlt⟩, hkeep⟩
    refine ⟨Nat.not_lt.mp fun hqs => ?_, hlt⟩
    rw [hg.kept hle hqs hq] at hkeep
    cases hkeep

/-- A number changes its block exactly if it is an element of the block that does not satisfy the
predicate. -/
theorem blockOf_cut (h : p.Valid n) (hi : i < p.numBlocks)
    (hg : g.Sorted keep p.segment (p.slice i).start (p.slice i).stop) {x : Nat} (hx : x < n) :
    (p.cut i g).blockOf x =
      if p.blockOf x = i ∧ keep x = false then p.numBlocks else p.blockOf x := by
  have hmem := mem_behind_iff h hi hg hx
  have hids : x < p.ids.size := h.size_ids.symm ▸ hx
  rw [blockOf, cut, ← Array.foldl_toList, Array.getD_eq_getD_getElem?, getElem?_foldl_setIfInBounds]
  by_cases hb : p.blockOf x = i ∧ keep x = false
  · rw [if_pos ⟨hmem.mpr hb, hids⟩, if_pos hb]; rfl
  · rw [if_neg (fun hc => hb (hmem.mp hc.1)), if_neg hb, ← Array.getD_eq_getD_getElem?]; rfl

/-- After the cut, too, a number belongs to the block in whose slice it stands. -/
theorem blockOf_cut_eq_iff (h : p.Valid n) (hi : i < p.numBlocks)
    (hg : g.Sorted keep p.segment (p.slice i).start (p.slice i).stop)
    (hstart : (p.slice i).start < g.split) (hstop : g.split < (p.slice i).stop) {q x j : Nat}
    (hq : g.segment[q]? = some x) (hj : j < p.numBlocks + 1) :
    (p.cut i g).blockOf x = j ↔ ((p.cut i g).slice j).start ≤ q ∧ q < ((p.cut i g).slice j).stop := by
  have hgather := h.gather hi hg
  have hx : x < n := hgather.lt_of_place hq
  have hold : ∀ {k : Nat}, k < p.numBlocks →
      (p.blockOf x = k ↔ (p.slice k).start ≤ q ∧ q < (p.slice k).stop) :=
    fun hk => hgather.blockOf_eq_iff hq hk
  have hlt := h.blockOf_lt hx
  have hsplit : (p.slice i).start ≤ q → q < (p.slice i).stop → (keep x = true ↔ q < g.split) := by
    intro hle hlt'
    rcases Nat.lt_or_ge q g.split with hqs | hqs
    · simp [hqs, hg.kept hle hqs hq]
    · simp [Nat.not_lt.mpr hqs, hg.moved hqs hlt' hq]
  have hi' := hold hi
  rw [blockOf_cut h hi hg hx, slice_cut hi]
  by_cases hjn : j = p.numBlocks
  · subst hjn
    rw [if_pos rfl]
    by_cases hb : p.blockOf x = i
    · obtain ⟨hle, hlt'⟩ := hi'.mp hb
      have := hsplit hle hlt'
      cases hk : keep x <;> simp [hb, hk] at this ⊢ <;> omega
    · rw [if_neg (fun hc => hb hc.1)]
      dsimp only
      omega
  · rw [if_neg hjn]
    by_cases hji : j = i
    · subst hji
      rw [if_pos rfl]
      by_cases hb : p.blockOf x = j
      · obtain ⟨hle, hlt'⟩ := hi'.mp hb
        have := hsplit hle hlt'
        cases hk : keep x <;> simp [hb, hk] at this ⊢ <;> omega
      · rw [if_neg (fun hc => hb hc.1)]
        dsimp only
        omega
    · rw [if_neg hji, ← hold (by omega)]
      split
      · next hc => omega
      · rfl

theorem valid_cut (h : p.Valid n) (hi : i < p.numBlocks)
    (hg : g.Sorted keep p.segment (p.slice i).start (p.slice i).stop)
    (hstart : (p.slice i).start < g.split) (hstop : g.split < (p.slice i).stop) :
    (p.cut i g).Valid n := by
  have hgather := h.gather hi hg
  have hpos : i ≠ 0 := by
    rintro rfl
    simp [h.slice_zero] at hstop
  refine ⟨hgather.perm, ?_, by simp [numBlocks_cut], ?_, fun {j} hj0 hj => ?_, fun j => ?_,
    fun {x} hx => ?_, fun {q x j} hq hj => ?_⟩
  · rw [cut, ← Array.foldl_toList, size_foldl_setIfInBounds, h.size_ids]
  · rw [slice_cut hi, if_neg (Nat.ne_of_lt h.numBlocks_pos), if_neg (Ne.symm hpos), h.slice_zero]
  · rw [numBlocks_cut] at hj
    rw [slice_cut hi]
    split
    · exact hstop
    · split
      · exact hstart
      · exact h.start_lt_stop hj0 (by omega)
  · have hle := h.stop_le i
    rw [slice_cut hi]
    split
    · exact hle
    · split
      · exact Nat.le_of_lt (Nat.lt_of_lt_of_le hstop hle)
      · exact h.stop_le j
  · have hlt := h.blockOf_lt hx
    rw [blockOf_cut h hi hg hx, numBlocks_cut]
    split <;> omega
  · rw [numBlocks_cut] at hj
    exact blockOf_cut_eq_iff h hi hg hstart hstop hq hj

end Cut

theorem refine_eq (p : Partition) (i : Nat) (keep : Nat → Bool) :
    p.refine i keep =
      let g := Gathering.sweep keep p.segment (p.slice i)
      if g.split = (p.slice i).start then ({ p with segment := g.segment }, ⟨0, i⟩)
      else if g.split = (p.slice i).stop then ({ p with segment := g.segment }, ⟨i, 0⟩)
      else (p.cut i g, ⟨i, p.numBlocks⟩) := rfl

theorem Valid.sorted_sweep (h : p.Valid n) (i : Nat) (keep : Nat → Bool) :
    (Gathering.sweep keep p.segment (p.slice i)).Sorted keep p.segment (p.slice i).start
      (p.slice i).stop :=
  Gathering.sorted_sweep keep (h.start_le_stop i) (h.size_segment.symm ▸ h.stop_le i)

theorem valid_refine (h : p.Valid n) (hi : i < p.numBlocks) (keep : Nat → Bool) :
    (p.refine i keep).1.Valid n := by
  have hg := h.sorted_sweep i keep
  have hstart := hg.start_le
  have hstop := hg.split_le
  rw [refine_eq]
  dsimp only
  split
  · exact h.gather hi hg
  · split
    · exact h.gather hi hg
    · exact valid_cut h hi hg (by omega) (by omega)

theorem splits_refine (h : p.Valid n) (hi : i < p.numBlocks) (keep : Nat → Bool) :
    Splits p n i keep (p.refine i keep) := by
  have hg := h.sorted_sweep i keep
  have hstart := hg.start_le
  have hstop := hg.split_le
  have hgather := h.gather hi hg
  -- the block as it stands after gathering has the same elements
  have hmem : ∀ {x}, x ∈ p.elements i ↔ ∃ q : Nat, (p.slice i).start ≤ q ∧ q < (p.slice i).stop ∧
      (Gathering.sweep keep p.segment (p.slice i)).segment[q]? = some x := fun {x} =>
    (h.mem_elements.trans hgather.mem_elements.symm).trans mem_elements_iff_place
  rw [refine_eq]
  dsimp only
  have hplace : ∀ {q : Nat}, q < (p.slice i).stop → ∃ x,
      (Gathering.sweep keep p.segment (p.slice i)).segment[q]? = some x := fun hq =>
    ⟨_, Array.getElem?_eq_getElem (hgather.size_segment.symm ▸ Nat.lt_of_lt_of_le hq (h.stop_le i))⟩
  have hsome : (Gathering.sweep keep p.segment (p.slice i)).split ≠ (p.slice i).start →
      ∃ x ∈ p.elements i, keep x = true := by
    intro hne
    obtain ⟨x, hx⟩ := hplace (q := (p.slice i).start) (by omega)
    exact ⟨x, hmem.mpr ⟨_, Nat.le_refl _, by omega, hx⟩, hg.kept (Nat.le_refl _) (by omega) hx⟩
  split
  · next hnone =>
    refine .none (fun x hx => ?_) rfl fun _ => rfl
    obtain ⟨q, hle, hlt, hq⟩ := hmem.mp hx
    exact hg.moved (by omega) hlt hq
  · next hne =>
    split
    · next hall =>
      refine .all (hsome hne) (fun x hx => ?_) rfl fun _ => rfl
      obtain ⟨q, hle, hlt, hq⟩ := hmem.mp hx
      exact hg.kept hle (by omega) hq
    · next hother =>
      obtain ⟨x, hx⟩ := hplace (q := (Gathering.sweep keep p.segment (p.slice i)).split) (by omega)
      refine .both (hsome hne) ⟨x, hmem.mpr ⟨_, by omega, by omega, hx⟩, ?_⟩ numBlocks_cut
        fun x hx => blockOf_cut h hi hg hx
      exact hg.moved (Nat.le_refl _) (by omega) hx

end Partition

end RegularSets
