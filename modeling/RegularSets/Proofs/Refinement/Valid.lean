import RegularSets.Proofs.Partition
import RegularSets.Proofs.SparseSet
import RegularSets.Refinement

/-!
# The data of a refinement

`Refinement.Valid` is what every step of a refinement keeps: the partition and the two sparse sets are
valid and large enough, and `pending` marks exactly the blocks on the worklist, which holds each of
them once. `splitBy` is read here as what it does to blocks: `predecessors` finds the states that a
symbol leads into the splitter, `candidates` the blocks that they may cut, and `split_cases` says all
that splitting one of them can do.

Each split lengthens the worklist by one and uses up one of the blocks that may still arise. `room` is
the sum of both; it never grows and every step takes one off, so as many steps as there are states
come to the end (`step?_iterate_eq_none`).
-/

namespace RegularSets

namespace Table

theorem size_foldr_modify (f : Nat → Nat) (states : List Nat) (n : Nat) :
    (states.foldr (fun s lists => lists.modify (f s) (s :: ·))
      (Array.replicate n ([] : List Nat))).size = n := by
  induction states with
  | nil => simp
  | cons a states ih => simpa using ih

/-- Consing states to the lists that they lead to adds exactly those states. -/
theorem mem_foldr_modify (f : Nat → Nat) (states : List Nat) {n x s : Nat} (hx : x < n) :
    s ∈ (states.foldr (fun s lists => lists.modify (f s) (s :: ·))
        (Array.replicate n ([] : List Nat))).getD x [] ↔ s ∈ states ∧ f s = x := by
  induction states with
  | nil => simp [hx]
  | cons a states ih =>
    have hlt := size_foldr_modify f states n
    rw [Array.getD_eq_getD_getElem?] at ih
    rw [List.foldr_cons, Array.getD_eq_getD_getElem?, Array.getElem?_modify, List.mem_cons]
    by_cases ha : f a = x
    · rw [if_pos ha]
      rw [Array.getElem?_eq_getElem (hlt.symm ▸ hx)] at ih ⊢
      simp only [Option.map_some, Option.getD_some, List.mem_cons] at ih ⊢
      refine (or_congr_right ih).trans ?_
      constructor
      · intro h
        rcases h with rfl | ⟨hs, hfs⟩
        · exact ⟨Or.inl rfl, ha⟩
        · exact ⟨Or.inr hs, hfs⟩
      · intro h
        rcases h with ⟨rfl | hs, hfs⟩
        · exact Or.inl rfl
        · exact Or.inr ⟨hs, hfs⟩
    · rw [if_neg ha]
      refine ih.trans ?_
      constructor
      · exact fun ⟨hs, hfs⟩ => ⟨Or.inr hs, hfs⟩
      · intro h
        rcases h with ⟨rfl | hs, hfs⟩
        · exact absurd hfs ha
        · exact ⟨hs, hfs⟩

theorem sources_getD (t : Table) {c : Nat} (hc : c < t.numSymbols) :
    t.sources.getD c #[] = (List.range t.numStates).foldr
      (fun s lists => lists.modify (t.next s c) (s :: ·)) (Array.replicate t.numStates []) := by
  simp [sources, hc]

theorem mem_sources (t : Table) {c x s : Nat} (hc : c < t.numSymbols) (hx : x < t.numStates) :
    s ∈ (t.sources.getD c #[]).getD x [] ↔ s < t.numStates ∧ t.next s c = x := by
  rw [t.sources_getD hc, mem_foldr_modify (fun s => t.next s c) _ hx, List.mem_range]

/-- There are lists for every symbol. -/
theorem getElem?_sources (t : Table) {c : Nat} (hc : c < t.numSymbols) :
    t.sources[c]? = some (t.sources.getD c #[]) :=
  getElem?_eq_some_getD (by simpa [sources] using hc) #[]

/-- There is a list for every state. -/
theorem getElem?_sources_getD (t : Table) {c x : Nat} (hc : c < t.numSymbols)
    (hx : x < t.numStates) :
    (t.sources.getD c #[])[x]? = some ((t.sources.getD c #[]).getD x []) := by
  have hsize : (t.sources.getD c #[]).size = t.numStates := by
    rw [t.sources_getD hc, size_foldr_modify (fun s => t.next s c)]
  exact getElem?_eq_some_getD (hsize.symm ▸ hx) []

end Table

namespace Refinement

/-- The parts of a refinement of a table fit together. -/
structure Valid (r : Refinement) (t : Table) : Prop where
  table : r.table = t
  sources : r.sources = t.sources
  partition : r.partition.Valid t.numStates
  size_pending : r.pending.size = t.numStates + 1
  pending_iff : ∀ b, r.pending.getD b false = true ↔ b ∈ r.worklist
  nodup_worklist : r.worklist.Nodup
  worklist_pos : ∀ {b : Nat}, b ∈ r.worklist → 0 < b
  worklist_lt : ∀ {b : Nat}, b ∈ r.worklist → b < r.partition.numBlocks
  led : r.led.Valid t.numStates
  cut : r.cut.Valid (t.numStates + 1)

variable {r : Refinement} {t : Table}

/-- Marking a block that is not on the worklist, and putting it there, keeps both in step. -/
theorem Valid.enqueue (h : r.Valid t) {b : Nat} (hpos : 0 < b) (hlt : b < r.partition.numBlocks)
    (hb : b ∉ r.worklist) : (r.enqueue b).Valid t := by
  have hsize : b < r.pending.size := by
    have := h.partition.numBlocks_le
    rw [h.size_pending]
    omega
  refine ⟨h.table, h.sources, h.partition, by simp [Refinement.enqueue, h.size_pending],
    fun d => ?_, List.nodup_cons.mpr ⟨hb, h.nodup_worklist⟩, fun {d} hd => ?_, fun {d} hd => ?_,
    h.led, h.cut⟩
  · have hd := h.pending_iff d
    simp only [Refinement.enqueue, Array.getD_eq_getD_getElem?, Array.getElem?_setIfInBounds,
      List.mem_cons] at hd ⊢
    by_cases hbd : b = d
    · subst hbd; simp [hsize]
    · simp [hbd, Ne.symm hbd, hd]
  · rcases List.mem_cons.mp hd with rfl | hd
    · exact hpos
    · exact h.worklist_pos hd
  · rcases List.mem_cons.mp hd with rfl | hd
    · exact hlt
    · exact h.worklist_lt hd

/-! ## Predecessors and candidates -/

theorem predecessors_eq (r : Refinement) (splitter : List Nat) (c : Nat) :
    r.predecessors splitter c =
      (splitter.flatMap fun x => (r.sources.getD c #[]).getD x []).foldl SparseSet.insert
        r.led.clear := by
  rw [predecessors, List.foldl_flatMap]

theorem candidates_eq (r : Refinement) (states : SparseSet) :
    r.candidates states =
      ((states.toList.map r.partition.blockOf).filter fun b =>
        1 < r.partition.blockSize b).foldl SparseSet.insert r.cut.clear := by
  simp only [candidates, List.foldl_filter, List.foldl_map, decide_eq_true_eq]

/-- `predecessors` finds the states that the symbol leads into the splitter. -/
theorem predecessors_spec (h : r.Valid t) {splitter : List Nat} {c : Nat} (hc : c < t.numSymbols)
    (hs : ∀ x ∈ splitter, x < t.numStates) :
    (r.predecessors splitter c).Valid t.numStates ∧
      ∀ {s}, s ∈ (r.predecessors splitter c).toList ↔
        s < t.numStates ∧ t.next s c ∈ splitter := by
  have hmem : ∀ {s}, s ∈ splitter.flatMap (fun x => (r.sources.getD c #[]).getD x []) ↔
      s < t.numStates ∧ t.next s c ∈ splitter := by
    intro s
    rw [List.mem_flatMap, h.sources]
    constructor
    · rintro ⟨x, hx, hsx⟩
      obtain ⟨hlt, rfl⟩ := (t.mem_sources hc (hs x hx)).mp hsx
      exact ⟨hlt, hx⟩
    · intro ⟨hlt, hx⟩
      exact ⟨_, hx, (t.mem_sources hc (hs _ hx)).mpr ⟨hlt, rfl⟩⟩
  have hclear := SparseSet.valid_clear h.led
  have hlt : ∀ s ∈ splitter.flatMap fun x => (r.sources.getD c #[]).getD x [], s < t.numStates :=
    fun s hs => (hmem.mp hs).1
  rw [predecessors_eq]
  refine ⟨SparseSet.valid_foldl_insert hclear hlt, fun {s} => ?_⟩
  rw [SparseSet.mem_foldl_insert hclear hlt, hmem, SparseSet.toList_clear]
  simp

/-- `candidates` finds the blocks of two elements or more that meet the states. -/
theorem candidates_spec (h : r.Valid t) {states : SparseSet} (hstates : states.Valid t.numStates) :
    (r.candidates states).Valid (t.numStates + 1) ∧
      ∀ {b}, b ∈ (r.candidates states).toList ↔
        ∃ s ∈ states.toList, r.partition.blockOf s = b ∧ 1 < r.partition.blockSize b := by
  have hclear := SparseSet.valid_clear h.cut
  have hmem : ∀ {b}, (b ∈ (states.toList.map r.partition.blockOf).filter fun b =>
      1 < r.partition.blockSize b) ↔
      ∃ s ∈ states.toList, r.partition.blockOf s = b ∧ 1 < r.partition.blockSize b := by
    intro b
    simp only [List.mem_filter, List.mem_map, decide_eq_true_eq]
    exact ⟨fun ⟨⟨s, hs, hsb⟩, hb⟩ => ⟨s, hs, hsb, hb⟩, fun ⟨s, hs, hsb, hb⟩ => ⟨⟨s, hs, hsb⟩, hb⟩⟩
  have hlt : ∀ b ∈ (states.toList.map r.partition.blockOf).filter fun b =>
      1 < r.partition.blockSize b, b < t.numStates + 1 := by
    intro b hb
    obtain ⟨s, hs, rfl, -⟩ := hmem.mp hb
    exact Nat.lt_of_lt_of_le (h.partition.blockOf_lt (hstates.lt_of_mem hs))
      h.partition.numBlocks_le
  rw [candidates_eq]
  refine ⟨SparseSet.valid_foldl_insert hclear hlt, fun {b} => ?_⟩
  rw [SparseSet.mem_foldl_insert hclear hlt, hmem, SparseSet.toList_clear]
  simp

/-! ## Splitting one block -/

/-- Block `d` of `p` falls into two: the states of a set stay, the others become the last block of
`q`. -/
structure Divides (p q : Partition) (n d : Nat) (states : List Nat) : Prop where
  valid : q.Valid n
  numBlocks : q.numBlocks = p.numBlocks + 1
  stays : ∀ {x : Nat}, x < n → p.blockOf x = d → x ∈ states → q.blockOf x = d
  moves : ∀ {x : Nat}, x < n → p.blockOf x = d → x ∉ states → q.blockOf x = p.numBlocks
  others : ∀ {x : Nat}, x < n → p.blockOf x ≠ d → q.blockOf x = p.blockOf x

variable {states : SparseSet} {d : Nat}

/-- All that splitting a block can do: nothing, if the block lies on one side of the set of states;
otherwise the block is divided and one part is put on the worklist. It is the new part if the block
was waiting already. -/
theorem split_cases (h : r.Valid t) (hstates : states.Valid t.numStates)
    (hd : d < r.partition.numBlocks) :
    (split states r d = r ∧ ((∀ x ∈ r.partition.elements d, x ∈ states.toList) ∨
      ∀ x ∈ r.partition.elements d, x ∉ states.toList)) ∨
    ∃ q b, split states r d = ({ r with partition := q } : Refinement).enqueue b ∧
      Divides r.partition q t.numStates d states.toList ∧ 0 < d ∧
      (b = d ∧ d ∉ r.worklist ∨ b = r.partition.numBlocks) := by
  have hcontains : ∀ {x}, states.contains x = true ↔ x ∈ states.toList :=
    SparseSet.contains_iff hstates
  have hvalid := Partition.valid_refine h.partition hd states.contains
  have hsplits := Partition.splits_refine h.partition hd states.contains
  unfold split
  generalize r.partition.refine d states.contains = result at hvalid hsplits ⊢
  cases hsplits with
  | none hnone hnum hblock =>
    refine Or.inl ⟨by simp, Or.inr fun x hx hmem => ?_⟩
    rw [← hcontains, hnone x hx] at hmem
    cases hmem
  | all hsome hall hnum hblock =>
    exact Or.inl ⟨by simp, Or.inl fun x hx => hcontains.mp (hall x hx)⟩
  | @both q hsome hother hnum hblock =>
    obtain ⟨x, hx, -⟩ := hsome
    obtain ⟨hxlt, hxd⟩ := h.partition.mem_elements.mp hx
    have hpos : 0 < d := hxd ▸ h.partition.blockOf_pos hxlt
    have hnumpos := h.partition.numBlocks_pos
    have hne : ∀ {x}, x ∉ states.toList → states.contains x = false := fun hx =>
      Bool.not_eq_true _ ▸ mt hcontains.mp hx
    have hdivides : Divides r.partition q t.numStates d states.toList :=
      ⟨hvalid, hnum, fun hx hxd hin => by rw [hblock _ hx, hcontains.mpr hin]; simp [hxd],
        fun hx hxd hout => by rw [hblock _ hx, hne hout]; simp [hxd],
        fun hx hxd => by rw [hblock _ hx, if_neg fun hc => hxd hc.1]⟩
    refine Or.inr ?_
    dsimp only
    rw [if_neg (by omega)]
    split
    · next hpending =>
      exact ⟨q, r.partition.numBlocks, rfl, hdivides, hpos, Or.inr rfl⟩
    · next hpending =>
      have hout : d ∉ r.worklist := mt (h.pending_iff d).mpr hpending
      split
      · exact ⟨q, d, rfl, hdivides, hpos, Or.inl ⟨rfl, hout⟩⟩
      · exact ⟨q, r.partition.numBlocks, rfl, hdivides, hpos, Or.inr rfl⟩

/-- The number of blocks that may still arise and of blocks on the worklist. -/
def room (r : Refinement) : Nat :=
  r.table.numStates + 1 - r.partition.numBlocks + r.worklist.length

theorem Valid.split (h : r.Valid t) (hstates : states.Valid t.numStates)
    (hd : d < r.partition.numBlocks) :
    (split states r d).Valid t ∧ (split states r d).room = r.room ∧
      r.partition.numBlocks ≤ (split states r d).partition.numBlocks := by
  rcases split_cases h hstates hd with ⟨heq, -⟩ | ⟨q, b, heq, hdiv, hpos, hb⟩
  · rw [heq]
    exact ⟨h, rfl, Nat.le_refl _⟩
  · rw [heq]
    have hnum := hdiv.numBlocks
    have hle := hdiv.valid.numBlocks_le
    have hq : ({ r with partition := q } : Refinement).Valid t :=
      ⟨h.table, h.sources, hdiv.valid, h.size_pending, h.pending_iff, h.nodup_worklist,
        h.worklist_pos, fun hb => Nat.lt_of_lt_of_le (h.worklist_lt hb) (by simp [hnum]),
        h.led, h.cut⟩
    refine ⟨hq.enqueue ?_ ?_ ?_, ?_, ?_⟩
    · rcases hb with ⟨rfl, -⟩ | rfl
      · exact hpos
      · exact h.partition.numBlocks_pos
    · simp only [hnum]
      rcases hb with ⟨rfl, -⟩ | rfl <;> omega
    · rcases hb with ⟨rfl, hout⟩ | rfl
      · exact hout
      · exact fun hin => Nat.lt_irrefl _ (h.worklist_lt hin)
    · have htable := h.table
      simp only [room, Refinement.enqueue, List.length_cons, htable]
      omega
    · simp [Refinement.enqueue, hnum]

/-! ## Using up a block -/

theorem Valid.foldl_split (h : r.Valid t) (hstates : states.Valid t.numStates) {ds : List Nat}
    (hds : ∀ d ∈ ds, d < r.partition.numBlocks) :
    (ds.foldl (Refinement.split states) r).Valid t ∧
      (ds.foldl (Refinement.split states) r).room = r.room := by
  induction ds generalizing r with
  | nil => exact ⟨h, rfl⟩
  | cons d ds ih =>
    obtain ⟨hvalid, hroom, hle⟩ := h.split hstates (hds d List.mem_cons_self)
    obtain ⟨hvalid', hroom'⟩ := ih hvalid fun d' hd' =>
      Nat.lt_of_lt_of_le (hds d' (List.mem_cons_of_mem d hd')) hle
    exact ⟨hvalid', hroom'.trans hroom⟩

/-- The two scratch sets may be replaced. -/
theorem Valid.scratch (h : r.Valid t) {led cut : SparseSet} (hled : led.Valid t.numStates)
    (hcut : cut.Valid (t.numStates + 1)) : ({ r with led, cut } : Refinement).Valid t :=
  ⟨h.table, h.sources, h.partition, h.size_pending, h.pending_iff, h.nodup_worklist, h.worklist_pos,
    h.worklist_lt, hled, hcut⟩

/-- Every candidate is a block, since some state has its id. -/
theorem candidates_lt (h : r.Valid t) (hstates : states.Valid t.numStates) :
    ∀ b ∈ (r.candidates states).toList, b < r.partition.numBlocks := by
  intro b hb
  obtain ⟨s, hs, rfl, -⟩ := (candidates_spec h hstates).2.mp hb
  exact h.partition.blockOf_lt (hstates.lt_of_mem hs)

theorem Valid.splitBy (h : r.Valid t) {splitter : List Nat} {c : Nat} (hc : c < t.numSymbols)
    (hs : ∀ x ∈ splitter, x < t.numStates) :
    (r.splitBy splitter c).Valid t ∧ (r.splitBy splitter c).room = r.room := by
  have hled := (predecessors_spec h hc hs).1
  have hcut := (candidates_spec h hled).1
  exact (h.scratch hled hcut).foldl_split hled (candidates_lt h hled)

theorem Valid.foldl_splitBy (h : r.Valid t) {splitter : List Nat} (cs : List Nat)
    (hcs : ∀ c ∈ cs, c < t.numSymbols) (hs : ∀ x ∈ splitter, x < t.numStates) :
    (cs.foldl (Refinement.splitBy splitter) r).Valid t ∧
      (cs.foldl (Refinement.splitBy splitter) r).room = r.room := by
  induction cs generalizing r with
  | nil => exact ⟨h, rfl⟩
  | cons c cs ih =>
    obtain ⟨hvalid, hroom⟩ := h.splitBy (hcs c List.mem_cons_self) hs
    obtain ⟨hvalid', hroom'⟩ := ih hvalid fun c' hc' => hcs c' (List.mem_cons_of_mem c hc')
    exact ⟨hvalid', hroom'.trans hroom⟩

/-- The refinement after its next block is taken off the worklist. -/
def pop (r : Refinement) (b : Nat) (rest : List Nat) : Refinement :=
  { r with worklist := rest, pending := r.pending.setIfInBounds b false }

/-- A step takes off a block and uses it with every symbol, unless all blocks hold one state. -/
theorem step?_eq_some {r' : Refinement} (h : r.step? = some r') :
    ∃ b rest, r.worklist = b :: rest ∧
      r' = (List.range r.table.numSymbols).foldl (splitBy (r.partition.elements b)) (r.pop b rest) := by
  unfold step? at h
  split at h
  · cases h
  · next b rest hw =>
    split at h
    · cases h
    · exact ⟨b, rest, hw, (Option.some.inj h).symm⟩

theorem step?_eq_none (h : r.step? = none) :
    r.worklist = [] ∨ r.partition.index = r.table.numStates := by
  unfold step? at h
  split at h
  · next hw => exact Or.inl hw
  · split at h
    · next hindex => exact Or.inr hindex
    · cases h

theorem Valid.pop (h : r.Valid t) {b : Nat} {rest : List Nat} (hw : r.worklist = b :: rest) :
    (r.pop b rest).Valid t := by
  have hnodup := hw ▸ h.nodup_worklist
  have hmem : ∀ {d}, d ∈ rest → d ∈ r.worklist := fun hd => hw ▸ List.mem_cons_of_mem b hd
  refine ⟨h.table, h.sources, h.partition, by simp [Refinement.pop, h.size_pending], fun d => ?_,
    (List.nodup_cons.mp hnodup).2, fun hd => h.worklist_pos (hmem hd),
    fun hd => h.worklist_lt (hmem hd), h.led, h.cut⟩
  have hd := h.pending_iff d
  have hb := (List.nodup_cons.mp hnodup).1
  simp only [Refinement.pop, Array.getD_eq_getD_getElem?, Array.getElem?_setIfInBounds, hw,
    List.mem_cons] at hd ⊢
  by_cases hbd : b = d
  · subst hbd
    by_cases hsize : b < r.pending.size <;> simp [hsize, hb]
  · simp [hbd, Ne.symm hbd, hd]

theorem Valid.elements_lt (h : r.Valid t) (b : Nat) :
    ∀ x ∈ r.partition.elements b, x < t.numStates :=
  fun _ hx => (h.partition.mem_elements.mp hx).1

theorem Valid.step (h : r.Valid t) {r' : Refinement} (hstep : r.step? = some r') :
    r'.Valid t ∧ r'.room + 1 = r.room := by
  obtain ⟨b, rest, hw, rfl⟩ := step?_eq_some hstep
  rw [h.table]
  obtain ⟨hvalid, hroom⟩ := (h.pop hw).foldl_splitBy (List.range t.numSymbols)
    (fun c hc => List.mem_range.mp hc) (h.elements_lt b)
  refine ⟨hvalid, ?_⟩
  rw [hroom]
  simp only [room, Refinement.pop, hw, List.length_cons]
  omega

theorem Valid.iterate (h : r.Valid t) (fuel : Nat) : (r.iterate fuel).Valid t := by
  induction fuel generalizing r with
  | zero => exact h
  | succ fuel ih =>
    rw [Refinement.iterate]
    split
    · exact h
    · next hstep => exact ih (h.step hstep).1

/-- With as many steps as there is room the refinement comes to an end. -/
theorem step?_iterate_eq_none (h : r.Valid t) {fuel : Nat} (hroom : r.room ≤ fuel) :
    (r.iterate fuel).step? = none := by
  induction fuel generalizing r with
  | zero =>
    cases hstep : r.step? with
    | none => exact hstep
    | some r' =>
      have := (h.step hstep).2
      omega
  | succ fuel ih =>
    rw [Refinement.iterate]
    split
    · next hstep => exact hstep
    · next hstep =>
      obtain ⟨hvalid, hless⟩ := h.step hstep
      exact ih hvalid (by omega)

/-! ## The start -/

/-- A refinement before its first splitter is chosen. -/
def fresh (t : Table) (p : Partition) : Refinement :=
  { table := t
    sources := t.sources
    partition := p
    worklist := []
    pending := Array.replicate (t.numStates + 1) false
    led := SparseSet.empty t.numStates
    cut := SparseSet.empty (t.numStates + 1) }

theorem valid_fresh {p : Partition} (hp : p.Valid t.numStates) : (fresh t p).Valid t :=
  ⟨rfl, rfl, hp, by simp [fresh], fun b => by
    simp only [fresh, Array.getD_eq_getD_getElem?, Array.getElem?_replicate]
    split <;> simp, List.nodup_nil, by simp [fresh], by simp [fresh], SparseSet.valid_empty _,
    SparseSet.valid_empty _⟩

theorem start_eq (t : Table) :
    start t =
      let all := Partition.whole t.numStates
      let result := all.refine (min all.index 1) t.final
      if result.2.kept = 0 then fresh t result.1 else (fresh t result.1).enqueue result.2.kept := rfl

/-- The block that is split first: all states, if there are any. -/
theorem first_lt (n : Nat) :
    min (Partition.whole n).index 1 < (Partition.whole n).numBlocks := by
  have := (Partition.valid_whole n).numBlocks_pos
  simp only [Partition.index]
  omega

theorem blockOf_whole {n x : Nat} (hx : x < n) :
    (Partition.whole n).blockOf x = min (Partition.whole n).index 1 := by
  have hn : n ≠ 0 := by omega
  simp [Partition.blockOf, Partition.whole, Partition.index, Partition.numBlocks, hx, hn]

theorem valid_start (t : Table) : (start t).Valid t := by
  have hwhole := Partition.valid_whole t.numStates
  have hvalid := Partition.valid_refine hwhole (first_lt _) t.final
  have hsplits := Partition.splits_refine hwhole (first_lt _) t.final
  rw [start_eq]
  dsimp only
  generalize (Partition.whole t.numStates).refine _ t.final = result at hvalid hsplits ⊢
  have hpos : ∀ {x}, x ∈ (Partition.whole t.numStates).elements
      (min (Partition.whole t.numStates).index 1) → 0 < min (Partition.whole t.numStates).index 1 :=
    fun hx => by
      obtain ⟨hlt, hb⟩ := hwhole.mem_elements.mp hx
      exact hb ▸ hwhole.blockOf_pos hlt
  split
  · exact valid_fresh hvalid
  · next hkept =>
    refine (valid_fresh hvalid).enqueue (Nat.pos_of_ne_zero hkept) ?_ (by simp [fresh])
    have hlt := first_lt t.numStates
    cases hsplits with
    | none => exact absurd rfl hkept
    | all _ _ hnum _ => exact hnum ▸ hlt
    | both _ _ hnum _ => exact Nat.lt_of_lt_of_le hlt (by simp [fresh, hnum])

theorem room_start_le (t : Table) : (start t).room ≤ t.numStates := by
  have hwhole := Partition.valid_whole t.numStates
  have hvalid := Partition.valid_refine hwhole (first_lt _) t.final
  have hsplits := Partition.splits_refine hwhole (first_lt _) t.final
  have hnumBlocks : (Partition.whole t.numStates).numBlocks = if t.numStates = 0 then 1 else 2 := by
    unfold Partition.numBlocks Partition.whole
    split <;> rfl
  have hindex : min (Partition.whole t.numStates).index 1 = if t.numStates = 0 then 0 else 1 := by
    rw [Partition.index, hnumBlocks]
    split <;> rfl
  rw [start_eq]
  dsimp only
  generalize (Partition.whole t.numStates).refine _ t.final = result at hvalid hsplits ⊢
  have hle := hvalid.numBlocks_le
  cases hsplits with
  | none _ hnum _ =>
    simp only [if_pos, room, fresh, hnum, List.length_nil]
    split at hnumBlocks <;> omega
  | all hsome _ hnum _ =>
    obtain ⟨x, hx, -⟩ := hsome
    have hx := (hwhole.mem_elements.mp hx).1
    have hkept : min (Partition.whole t.numStates).index 1 ≠ 0 := by rw [hindex, if_neg] <;> omega
    rw [if_neg hkept]
    simp only [room, Refinement.enqueue, fresh, List.length_cons, List.length_nil, hnum]
    rw [if_neg (by omega)] at hnumBlocks
    omega
  | both hsome _ hnum _ =>
    obtain ⟨x, hx, -⟩ := hsome
    have hx := (hwhole.mem_elements.mp hx).1
    have hkept : min (Partition.whole t.numStates).index 1 ≠ 0 := by rw [hindex, if_neg] <;> omega
    rw [if_neg hkept]
    simp only [room, Refinement.enqueue, fresh, List.length_cons, List.length_nil, hnum] at hle ⊢
    rw [if_neg (by omega)] at hnumBlocks
    omega

end Refinement

end RegularSets
