import Mathlib.SetTheory.Cardinal.Finite
import RegularSets.Proofs.Refinement.Valid

/-!
# The classes of equivalent states

The refinement ends with the classes of equivalent states. One half is simple: a block is only ever
cut by the predecessors of a block, and neither cuts a class in two (`Sound`).

The other half is why the smaller part of a block is enough. Call a relation *respectful* of a set of
states on a symbol if the symbol leads related states to the same side of the set. What a relation
respects is closed under complement, union and difference. The invariant `Covered` says: a relation
finer than the partition that respects the blocks on the worklist, and the splitter in use on the
symbols still to come, respects every block. If a waiting block is divided, both parts wait; if another
one is, it was respected as a whole, so that respect for one part is respect for both. Once the
worklist is empty the partition itself respects all of its blocks, and then states of one block are
equivalent.
-/

namespace RegularSets

namespace Table

/-- The same words over the table's symbols lead from both states to a final state. -/
def Equivalent (t : Table) (s s' : Nat) : Prop :=
  ∀ word : List Nat, (∀ c ∈ word, c < t.numSymbols) →
    t.final (t.run s word) = t.final (t.run s' word)

variable {t : Table} {s s' : Nat}

theorem Equivalent.symm (h : t.Equivalent s s') : t.Equivalent s' s :=
  fun word hword => (h word hword).symm

theorem Equivalent.final_eq (h : t.Equivalent s s') : t.final s = t.final s' :=
  h [] (by simp)

/-- A symbol leads equivalent states to equivalent states. -/
theorem Equivalent.next (h : t.Equivalent s s') {c : Nat} (hc : c < t.numSymbols) :
    t.Equivalent (t.next s c) (t.next s' c) := fun word hword =>
  h (c :: word) (by simpa using ⟨hc, hword⟩)

/-- Equivalence as a setoid on the states. -/
def nerode (t : Table) : Setoid (Fin t.numStates) where
  r s s' := t.Equivalent s s'
  iseqv := ⟨fun _ _ _ => rfl, Equivalent.symm, fun h h' word hword => (h word hword).trans (h' word hword)⟩

/-- A set of states that contains with a state all equivalent ones. -/
def Saturated (t : Table) (states : Nat → Prop) : Prop :=
  ∀ s s', s < t.numStates → s' < t.numStates → t.Equivalent s s' → states s → states s'

/-- The symbol leads related states to the same side of a set. -/
def Respects (t : Table) (related : Nat → Nat → Prop) (c : Nat) (states : Nat → Prop) : Prop :=
  ∀ s s', related s s' → (states (t.next s c) ↔ states (t.next s' c))

section Respects

variable {related : Nat → Nat → Prop} {c : Nat} {X Y Z : Nat → Prop}

theorem Respects.or (hX : t.Respects related c X) (hY : t.Respects related c Y) :
    t.Respects related c fun x => X x ∨ Y x :=
  fun s s' hrel => or_congr (hX s s' hrel) (hY s s' hrel)

theorem Respects.diff (hX : t.Respects related c X) (hY : t.Respects related c Y) :
    t.Respects related c fun x => X x ∧ ¬Y x :=
  fun s s' hrel => and_congr (hX s s' hrel) (not_congr (hY s s' hrel))

/-- Only the states of the table count. -/
theorem Respects.congr (hX : t.Respects related c X) (hc : c < t.numSymbols)
    (hrelated : ∀ s s', related s s' → s < t.numStates ∧ s' < t.numStates)
    (hXY : ∀ x < t.numStates, (Y x ↔ X x)) : t.Respects related c Y := by
  intro s s' hrel
  obtain ⟨hs, hs'⟩ := hrelated s s' hrel
  rw [hXY _ (t.next_lt hs hc), hXY _ (t.next_lt hs' hc)]
  exact hX s s' hrel

end Respects

end Table

/-- Related numbers are below `n` and lie in the same block. -/
def Partition.Finer (related : Nat → Nat → Prop) (p : Partition) (n : Nat) : Prop :=
  ∀ s s', related s s' → s < n ∧ s' < n ∧ p.blockOf s = p.blockOf s'

/-- The block lies inside the list of states or outside. -/
def Partition.Uniform (p : Partition) (states : List Nat) (b : Nat) : Prop :=
  (∀ x ∈ p.elements b, x ∈ states) ∨ ∀ x ∈ p.elements b, x ∉ states

namespace Refinement

open RegularSets.Partition (Finer Uniform)

/-! ## Dividing a block -/

section Divides

variable {p q : Partition} {n d : Nat} {states : List Nat}

theorem Divides.blockOf_stays_iff (h : Divides p q n d states) {x : Nat} (hx : x < n)
    (hd : d < p.numBlocks) : q.blockOf x = d ↔ p.blockOf x = d ∧ x ∈ states := by
  by_cases hxd : p.blockOf x = d
  · by_cases hin : x ∈ states
    · simp [h.stays hx hxd hin, hxd, hin]
    · simp [h.moves hx hxd hin, hin, Nat.ne_of_gt hd]
  · simp [h.others hx hxd, hxd]

theorem Divides.blockOf_moves_iff (h : Divides p q n d states) (hp : p.Valid n) {x : Nat}
    (hx : x < n) (hd : d < p.numBlocks) :
    q.blockOf x = p.numBlocks ↔ p.blockOf x = d ∧ x ∉ states := by
  have hlt := hp.blockOf_lt hx
  by_cases hxd : p.blockOf x = d
  · by_cases hin : x ∈ states
    · simp [h.stays hx hxd hin, hin, Nat.ne_of_lt hd]
    · simp [h.moves hx hxd hin, hxd, hin]
  · simp [h.others hx hxd, hxd, Nat.ne_of_lt hlt]

theorem Divides.blockOf_others_iff (h : Divides p q n d states) {x b : Nat}
    (hx : x < n) (hbd : b ≠ d) (hb : b ≠ p.numBlocks) : q.blockOf x = b ↔ p.blockOf x = b := by
  by_cases hxd : p.blockOf x = d
  · by_cases hin : x ∈ states
    · simp [h.stays hx hxd hin, hxd]
    · simp [h.moves hx hxd hin, hxd, hbd.symm, hb.symm]
  · rw [h.others hx hxd]

/-- What is finer than the divided partition is finer than the one before. -/
theorem Divides.finer (h : Divides p q n d states) (hp : p.Valid n) (hd : d < p.numBlocks)
    {related : Nat → Nat → Prop} (hfiner : Finer related q n) : Finer related p n := by
  intro s s' hrel
  obtain ⟨hs, hs', heq⟩ := hfiner s s' hrel
  refine ⟨hs, hs', ?_⟩
  by_cases hsd : p.blockOf s = d
  · have hs'd : p.blockOf s' = d := by
      by_cases hin : s ∈ states
      · exact ((h.blockOf_stays_iff hs' hd).mp (heq ▸ h.stays hs hsd hin)).1
      · exact ((h.blockOf_moves_iff hp hs' hd).mp (heq ▸ h.moves hs hsd hin)).1
    rw [hsd, hs'd]
  · have hlt := hp.blockOf_lt hs
    rw [h.others hs hsd] at heq
    exact ((h.blockOf_others_iff hs' hsd (Nat.ne_of_lt hlt)).mp heq.symm).symm

theorem Divides.uniform (h : Divides p q n d states) (hp : p.Valid n) (hd : d < p.numBlocks)
    {b : Nat} (hb : b = d ∨ b = p.numBlocks ∨ Uniform p states b) : Uniform q states b := by
  by_cases hbd : b = d
  · subst hbd
    refine Or.inl fun x hx => ?_
    obtain ⟨hlt, hxb⟩ := h.valid.mem_elements.mp hx
    exact ((h.blockOf_stays_iff hlt hd).mp hxb).2
  · by_cases hbn : b = p.numBlocks
    · subst hbn
      refine Or.inr fun x hx => ?_
      obtain ⟨hlt, hxb⟩ := h.valid.mem_elements.mp hx
      exact ((h.blockOf_moves_iff hp hlt hd).mp hxb).2
    · have hmem : ∀ {x}, x ∈ q.elements b → x ∈ p.elements b := by
        intro x hx
        obtain ⟨hlt, hxb⟩ := h.valid.mem_elements.mp hx
        exact hp.mem_elements.mpr ⟨hlt, (h.blockOf_others_iff hlt hbd hbn).mp hxb⟩
      rcases (hb.resolve_left hbd).resolve_left hbn with hin | hout
      · exact Or.inl fun x hx => hin x (hmem hx)
      · exact Or.inr fun x hx => hout x (hmem hx)

/-- The parts of a divided block make up the block, and each is the block without the other; other
blocks are what they were. So a relation respects the parts and the block alike. -/
theorem Divides.respects {t : Table} (h : Divides p q t.numStates d states)
    (hp : p.Valid t.numStates) (hd : d < p.numBlocks) {c : Nat} (hc : c < t.numSymbols)
    {related : Nat → Nat → Prop}
    (hrelated : ∀ s s', related s s' → s < t.numStates ∧ s' < t.numStates) :
    (t.Respects related c (q.blockOf · = d) → t.Respects related c (q.blockOf · = p.numBlocks) →
      t.Respects related c (p.blockOf · = d)) ∧
    (t.Respects related c (p.blockOf · = d) → t.Respects related c (q.blockOf · = p.numBlocks) →
      t.Respects related c (q.blockOf · = d)) ∧
    (t.Respects related c (p.blockOf · = d) → t.Respects related c (q.blockOf · = d) →
      t.Respects related c (q.blockOf · = p.numBlocks)) ∧
    (∀ b, b ≠ d → b ≠ p.numBlocks →
      (t.Respects related c (q.blockOf · = b) ↔ t.Respects related c (p.blockOf · = b))) := by
  have hsets : ∀ x < t.numStates,
      (p.blockOf x = d ↔ q.blockOf x = d ∨ q.blockOf x = p.numBlocks) ∧
      (q.blockOf x = d ↔ p.blockOf x = d ∧ ¬q.blockOf x = p.numBlocks) ∧
      (q.blockOf x = p.numBlocks ↔ p.blockOf x = d ∧ ¬q.blockOf x = d) := by
    intro x hx
    rw [h.blockOf_stays_iff hx hd, h.blockOf_moves_iff hp hx hd]
    tauto
  exact ⟨fun hstay hmove => (hstay.or hmove).congr hc hrelated fun x hx => (hsets x hx).1,
    fun hall hmove => (hall.diff hmove).congr hc hrelated fun x hx => (hsets x hx).2.1,
    fun hall hstay => (hall.diff hstay).congr hc hrelated fun x hx => (hsets x hx).2.2,
    fun b hbd hbn =>
      ⟨fun hb => hb.congr hc hrelated fun x hx => (h.blockOf_others_iff hx hbd hbn).symm,
        fun hb => hb.congr hc hrelated fun x hx => h.blockOf_others_iff hx hbd hbn⟩⟩

end Divides

/-! ## Blocks do not cut classes -/

/-- Equivalent states share a block, and states of one block are all final or none is. -/
structure Sound (r : Refinement) (t : Table) : Prop where
  valid : r.Valid t
  coarse : ∀ {s s' : Nat}, s < t.numStates → s' < t.numStates → t.Equivalent s s' →
    r.partition.blockOf s = r.partition.blockOf s'
  final_eq : ∀ {s s' : Nat}, s < t.numStates → s' < t.numStates →
    r.partition.blockOf s = r.partition.blockOf s' → t.final s = t.final s'

variable {r : Refinement} {t : Table} {states : SparseSet} {d : Nat}

/-- Splitting by a saturated set cuts no class, and it makes blocks finer. -/
theorem Sound.split (h : r.Sound t) (hstates : states.Valid t.numStates)
    (hsat : t.Saturated (· ∈ states.toList)) (hd : d < r.partition.numBlocks) :
    (split states r d).Sound t := by
  refine ⟨(h.valid.split hstates hd).1, ?_, ?_⟩
  · intro s s' hs hs' hequiv
    have hcoarse := h.coarse hs hs' hequiv
    rcases split_cases h.valid hstates hd with ⟨heq, -⟩ | ⟨q, b, heq, hdiv, -⟩
    · rwa [heq]
    · rw [heq]
      show q.blockOf s = q.blockOf s'
      have hiff : s ∈ states.toList ↔ s' ∈ states.toList :=
        ⟨hsat s s' hs hs' hequiv, hsat s' s hs' hs hequiv.symm⟩
      by_cases hsd : r.partition.blockOf s = d
      · have hs'd := hcoarse ▸ hsd
        by_cases hin : s ∈ states.toList
        · rw [hdiv.stays hs hsd hin, hdiv.stays hs' hs'd (hiff.mp hin)]
        · rw [hdiv.moves hs hsd hin, hdiv.moves hs' hs'd (mt hiff.mpr hin)]
      · rw [hdiv.others hs hsd, hdiv.others hs' (hcoarse ▸ hsd), hcoarse]
  · intro s s' hs hs' hblock
    rcases split_cases h.valid hstates hd with ⟨heq, -⟩ | ⟨q, b, heq, hdiv, -⟩
    · exact h.final_eq hs hs' (heq ▸ hblock)
    · rw [heq] at hblock
      have hfiner : Finer (fun x y => x = s ∧ y = s') q t.numStates := by
        rintro _ _ ⟨rfl, rfl⟩
        exact ⟨hs, hs', hblock⟩
      exact h.final_eq hs hs' (hdiv.finer h.valid.partition hd hfiner s s' ⟨rfl, rfl⟩).2.2

theorem Sound.foldl_split (h : r.Sound t) (hstates : states.Valid t.numStates)
    (hsat : t.Saturated (· ∈ states.toList)) {ds : List Nat}
    (hds : ∀ d ∈ ds, d < r.partition.numBlocks) :
    (ds.foldl (Refinement.split states) r).Sound t := by
  induction ds generalizing r with
  | nil => exact h
  | cons d ds ih =>
    obtain ⟨-, -, hle⟩ := h.valid.split hstates (hds d List.mem_cons_self)
    exact ih (h.split hstates hsat (hds d List.mem_cons_self)) fun d' hd' =>
      Nat.lt_of_lt_of_le (hds d' (List.mem_cons_of_mem d hd')) hle

/-- The states that a symbol leads into a saturated set are saturated. -/
theorem saturated_predecessors (h : r.Valid t) {splitter : List Nat} {c : Nat}
    (hc : c < t.numSymbols) (hs : ∀ x ∈ splitter, x < t.numStates)
    (hsat : t.Saturated (· ∈ splitter)) :
    t.Saturated (· ∈ (r.predecessors splitter c).toList) := by
  obtain ⟨-, hmem⟩ := predecessors_spec h hc hs
  intro s s' hs hs' hequiv hin
  exact hmem.mpr
    ⟨hs', hsat _ _ (t.next_lt hs hc) (t.next_lt hs' hc) (hequiv.next hc) (hmem.mp hin).2⟩

theorem Sound.splitBy (h : r.Sound t) {splitter : List Nat} {c : Nat} (hc : c < t.numSymbols)
    (hs : ∀ x ∈ splitter, x < t.numStates) (hsat : t.Saturated (· ∈ splitter)) :
    (r.splitBy splitter c).Sound t := by
  have hled := (predecessors_spec h.valid hc hs).1
  have hcut := (candidates_spec h.valid hled).1
  have hscratch : ({ r with
      led := r.predecessors splitter c
      cut := r.candidates (r.predecessors splitter c) } : Refinement).Sound t :=
    ⟨h.valid.scratch hled hcut, h.coarse, h.final_eq⟩
  exact hscratch.foldl_split hled (saturated_predecessors h.valid hc hs hsat)
    (candidates_lt h.valid hled)

theorem Sound.foldl_splitBy (h : r.Sound t) {splitter cs : List Nat}
    (hcs : ∀ c ∈ cs, c < t.numSymbols) (hs : ∀ x ∈ splitter, x < t.numStates)
    (hsat : t.Saturated (· ∈ splitter)) : (cs.foldl (Refinement.splitBy splitter) r).Sound t := by
  induction cs generalizing r with
  | nil => exact h
  | cons c cs ih =>
    exact ih (h.splitBy (hcs c List.mem_cons_self) hs hsat) fun c' hc' =>
      hcs c' (List.mem_cons_of_mem c hc')

theorem Sound.saturated_elements (h : r.Sound t) (b : Nat) :
    t.Saturated (· ∈ r.partition.elements b) := by
  intro s s' hs hs' hequiv hin
  rw [h.valid.partition.mem_elements] at hin ⊢
  exact ⟨hs', h.coarse hs hs' hequiv ▸ hin.2⟩

theorem Sound.step (h : r.Sound t) {r' : Refinement} (hstep : r.step? = some r') : r'.Sound t := by
  obtain ⟨b, rest, hw, rfl⟩ := step?_eq_some hstep
  rw [h.valid.table]
  have hpop : (r.pop b rest).Sound t := ⟨h.valid.pop hw, h.coarse, h.final_eq⟩
  exact hpop.foldl_splitBy (fun c hc => List.mem_range.mp hc) (h.valid.elements_lt b)
    (h.saturated_elements b)

/-! ## Every block is respected in the end -/

/-- A relation finer than the partition respects all blocks on a symbol if it respects those on the
worklist and, on the symbols in `todo`, the splitter. -/
def Covered (r : Refinement) (t : Table) (todo splitter : List Nat) : Prop :=
  ∀ c < t.numSymbols, ∀ related : Nat → Nat → Prop, Finer related r.partition t.numStates →
    (∀ b ∈ r.worklist, t.Respects related c (r.partition.blockOf · = b)) →
    (c ∈ todo → t.Respects related c (· ∈ splitter)) →
    ∀ b, t.Respects related c (r.partition.blockOf · = b)

variable {todo splitter : List Nat}

/-- Dividing a block keeps the invariant. If the block waited, both parts wait now; otherwise it was
respected, so the part put on the worklist stands for the other one as well. -/
theorem Covered.split (h : r.Covered t todo splitter) (hr : r.Valid t)
    (hstates : states.Valid t.numStates) (hd : d < r.partition.numBlocks) :
    (split states r d).Covered t todo splitter := by
  rcases split_cases hr hstates hd with ⟨heq, -⟩ | ⟨q, e, heq, hdiv, -, he⟩
  · rwa [heq]
  rw [heq]
  intro c hc related hfiner hwork hsplitter b
  have hwork : ∀ b ∈ e :: r.worklist, t.Respects related c (q.blockOf · = b) := hwork
  show t.Respects related c (q.blockOf · = b)
  have hrelated : ∀ s s', related s s' → s < t.numStates ∧ s' < t.numStates := fun s s' hrel =>
    ⟨(hfiner s s' hrel).1, (hfiner s s' hrel).2.1⟩
  obtain ⟨hjoin, hstay, hmove, hothers⟩ := hdiv.respects hr.partition hd hc hrelated
  have hpart := hwork e List.mem_cons_self
  -- all blocks from before are respected, since those that waited still are
  have hold : ∀ b, t.Respects related c (r.partition.blockOf · = b) := by
    refine h c hc related (hdiv.finer hr.partition hd hfiner) (fun b hb => ?_) hsplitter
    have hbwork := hwork b (List.mem_cons_of_mem e hb)
    by_cases hbd : b = d
    · subst hbd
      obtain rfl : e = r.partition.numBlocks := he.resolve_left fun hc => hc.2 hb
      exact hjoin hbwork hpart
    · exact (hothers b hbd (Nat.ne_of_lt (hr.worklist_lt hb))).mp hbwork
  by_cases hbd : b = d
  · subst hbd
    rcases he with ⟨rfl, -⟩ | rfl
    · exact hpart
    · exact hstay (hold b) hpart
  · by_cases hbn : b = r.partition.numBlocks
    · subst hbn
      rcases he with ⟨rfl, -⟩ | rfl
      · exact hmove (hold e) hpart
      · exact hpart
    · exact (hothers b hbd hbn).mpr (hold b)

/-- Splitting several blocks keeps the invariant, and leaves every block uniform that was uniform
before or was split. -/
theorem Covered.foldl_split (h : r.Covered t todo splitter) (hr : r.Valid t)
    (hstates : states.Valid t.numStates) (ds : List Nat) (hds : ∀ d ∈ ds, d < r.partition.numBlocks)
    (huniform : ∀ b, b ∉ ds → Uniform r.partition states.toList b) :
    (ds.foldl (Refinement.split states) r).Covered t todo splitter ∧
      ∀ b, Uniform (ds.foldl (Refinement.split states) r).partition states.toList b := by
  induction ds generalizing r with
  | nil => exact ⟨h, fun b => huniform b (by simp)⟩
  | cons d ds ih =>
    have hd := hds d List.mem_cons_self
    obtain ⟨hvalid, -, hle⟩ := hr.split hstates hd
    refine ih (h.split hr hstates hd) hvalid (fun d' hd' =>
      Nat.lt_of_lt_of_le (hds d' (List.mem_cons_of_mem d hd')) hle) fun b hb => ?_
    have hb' : b ≠ d → Uniform r.partition states.toList b := fun hbd =>
      huniform b (by simp [hbd, hb])
    rcases split_cases hr hstates hd with ⟨heq, hsame⟩ | ⟨q, e, heq, hdiv, -⟩
    · rw [heq]
      by_cases hbd : b = d
      · exact hbd ▸ hsame
      · exact hb' hbd
    · rw [heq]
      refine hdiv.uniform hr.partition hd ?_
      by_cases hbd : b = d
      · exact Or.inl hbd
      · exact Or.inr (Or.inr (hb' hbd))

/-- A block that is no candidate is uniform: it does not meet the states or holds one state. -/
theorem uniform_of_not_candidate (h : r.Valid t) (hstates : states.Valid t.numStates) {b : Nat}
    (hb : b ∉ (r.candidates states).toList) : Uniform r.partition states.toList b := by
  by_cases hmeet : ∃ x ∈ r.partition.elements b, x ∈ states.toList
  · obtain ⟨x, hx, hin⟩ := hmeet
    obtain ⟨-, hxb⟩ := h.partition.mem_elements.mp hx
    have hsize : r.partition.blockSize b ≤ 1 := Nat.not_lt.mp fun hlt =>
      hb ((candidates_spec h hstates).2.mpr ⟨x, hin, hxb, hlt⟩)
    rw [← h.partition.length_elements] at hsize
    refine Or.inl fun y hy => ?_
    obtain ⟨z, hz⟩ : ∃ z, r.partition.elements b = [z] :=
      List.length_eq_one_iff.mp (Nat.le_antisymm hsize (List.length_pos_of_mem hx))
    rw [hz, List.mem_singleton] at hx hy
    exact hy ▸ hx ▸ hin
  · exact Or.inr fun x hx hin => hmeet ⟨x, hx, hin⟩

/-- Once the splitter has been used with a symbol, a relation finer than the partition respects it on
that symbol. -/
theorem Covered.splitBy {c : Nat} (h : r.Covered t (c :: todo) splitter) (hr : r.Valid t)
    (hc : c < t.numSymbols) (hs : ∀ x ∈ splitter, x < t.numStates) :
    (r.splitBy splitter c).Covered t todo splitter := by
  obtain ⟨hled, hmem⟩ := predecessors_spec hr hc hs
  have hcut := (candidates_spec hr hled).1
  have hscratch : ({ r with
      led := r.predecessors splitter c
      cut := r.candidates (r.predecessors splitter c) } : Refinement).Covered t (c :: todo)
        splitter := h
  obtain ⟨hcov, huniform⟩ := hscratch.foldl_split (hr.scratch hled hcut) hled
    (r.candidates (r.predecessors splitter c)).toList (candidates_lt hr hled)
    fun b hb => uniform_of_not_candidate hr hled hb
  have hvalid := (hr.splitBy hc hs).1
  intro c' hc' related hfiner hwork hsplitter
  refine hcov c' hc' related hfiner hwork fun hin => ?_
  rcases List.mem_cons.mp hin with rfl | hin
  · intro s s' hrel
    obtain ⟨hs, hs', hblock⟩ := hfiner s s' hrel
    have hin := hvalid.partition.mem_elements.mpr ⟨hs, hblock⟩
    have hin' := hvalid.partition.mem_elements.mpr ⟨hs', rfl⟩
    rcases huniform ((r.splitBy splitter c').partition.blockOf s') with hall | hnone
    · exact iff_of_true (hmem.mp (hall s hin)).2 (hmem.mp (hall s' hin')).2
    · exact iff_of_false (fun hn => hnone s hin (hmem.mpr ⟨hs, hn⟩))
        (fun hn => hnone s' hin' (hmem.mpr ⟨hs', hn⟩))
  · exact hsplitter hin

theorem Covered.foldl_splitBy {cs : List Nat} (h : r.Covered t cs splitter) (hr : r.Valid t)
    (hcs : ∀ c ∈ cs, c < t.numSymbols) (hs : ∀ x ∈ splitter, x < t.numStates) :
    (cs.foldl (Refinement.splitBy splitter) r).Covered t [] splitter := by
  induction cs generalizing r with
  | nil => exact h
  | cons c cs ih =>
    have hc := hcs c List.mem_cons_self
    exact ih (h.splitBy hr hc hs) (hr.splitBy hc hs).1 fun c' hc' =>
      hcs c' (List.mem_cons_of_mem c hc')

theorem Covered.step (h : r.Covered t [] []) (hr : r.Valid t) {r' : Refinement}
    (hstep : r.step? = some r') : r'.Covered t [] [] := by
  obtain ⟨b, rest, hw, rfl⟩ := step?_eq_some hstep
  rw [hr.table]
  have hpop : (r.pop b rest).Covered t (List.range t.numSymbols) (r.partition.elements b) := by
    intro c hc related hfiner hwork hsplitter
    refine h c hc related hfiner (fun d hd => ?_) nofun
    rw [hw] at hd
    rcases List.mem_cons.mp hd with rfl | hd
    · -- the block taken off is the splitter
      refine (hsplitter (List.mem_range.mpr hc)).congr hc
        (fun s s' hrel => ⟨(hfiner s s' hrel).1, (hfiner s s' hrel).2.1⟩) fun x hx => ?_
      simp [hr.partition.mem_elements, hx]
    · exact hwork d hd
  have hdone := hpop.foldl_splitBy (hr.pop hw) (fun c hc => List.mem_range.mp hc)
    (hr.elements_lt b)
  exact fun c hc related hfiner hwork _ => hdone c hc related hfiner hwork nofun

theorem iterate_invariant (fuel : Nat) (hr : r.Sound t) (hcov : r.Covered t [] []) :
    (r.iterate fuel).Sound t ∧ (r.iterate fuel).Covered t [] [] := by
  induction fuel generalizing r with
  | zero => exact ⟨hr, hcov⟩
  | succ fuel ih =>
    rw [iterate]
    split
    · exact ⟨hr, hcov⟩
    · next hstep => exact ih (hr.step hstep) (hcov.step hr.valid hstep)

/-! ## The start -/

/-- A single block is enough if all states are final or none is. -/
theorem invariant_of_constant {e : Nat} (hvalid : r.Valid t)
    (hconst : ∀ x < t.numStates, r.partition.blockOf x = e)
    (hfinal : ∀ x < t.numStates, ∀ y < t.numStates, t.final x = t.final y) :
    r.Sound t ∧ r.Covered t [] [] := by
  refine ⟨⟨hvalid, fun {s s'} hs hs' _ => ?_, fun {s s'} hs hs' _ => hfinal s hs s' hs'⟩, ?_⟩
  · rw [hconst s hs, hconst s' hs']
  · intro c hc related hfiner _ _ b s s' hrel
    obtain ⟨hs, hs', -⟩ := hfiner s s' hrel
    dsimp only
    rw [hconst _ (t.next_lt hs hc), hconst _ (t.next_lt hs' hc)]

/-- Two blocks, one of the final states and one of the others, are enough if the first one waits: what
respects it respects the other one. -/
theorem invariant_of_final {first other : Nat} (hvalid : r.Valid t) (hne : first ≠ other)
    (hwaits : first ∈ r.worklist)
    (hblock : ∀ x < t.numStates, r.partition.blockOf x = if t.final x = false then other else first) :
    r.Sound t ∧ r.Covered t [] [] := by
  refine ⟨⟨hvalid, fun {s s'} hs hs' hequiv => ?_, fun {s s'} hs hs' heq => ?_⟩, ?_⟩
  · rw [hblock s hs, hblock s' hs', hequiv.final_eq]
  · rw [hblock s hs, hblock s' hs'] at heq
    cases hfs : t.final s <;> cases hfs' : t.final s' <;> simp [hfs, hfs', hne, hne.symm] at heq ⊢
  · intro c hc related hfiner hwork _ b s s' hrel
    obtain ⟨hs, hs', -⟩ := hfiner s s' hrel
    have hside := hwork first hwaits s s' hrel
    dsimp only at hside ⊢
    rw [hblock _ (t.next_lt hs hc), hblock _ (t.next_lt hs' hc)] at hside ⊢
    cases hfs : t.final (t.next s c) <;> cases hfs' : t.final (t.next s' c) <;>
      simp [hfs, hfs', hne.symm] at hside ⊢

/-- Final and other states are apart, and of these two blocks the one on the worklist stands for
both. -/
theorem start_invariant (t : Table) : (start t).Sound t ∧ (start t).Covered t [] [] := by
  have hvalid := valid_start t
  have hwhole := Partition.valid_whole t.numStates
  have hsplits := Partition.splits_refine hwhole (first_lt _) t.final
  have hfirst : ∀ {x}, x < t.numStates → x ∈ (Partition.whole t.numStates).elements
      (min (Partition.whole t.numStates).index 1) := fun hx =>
    hwhole.mem_elements.mpr ⟨hx, blockOf_whole hx⟩
  rw [start_eq] at hvalid ⊢
  dsimp only at hvalid ⊢
  generalize hfirst_eq : min (Partition.whole t.numStates).index 1 = first at hsplits hvalid hfirst ⊢
  have hconst : ∀ {x}, x < t.numStates → (Partition.whole t.numStates).blockOf x = first :=
    fun hx => hfirst_eq ▸ blockOf_whole hx
  have hpos : (∃ y ∈ (Partition.whole t.numStates).elements first, t.final y = true) → first ≠ 0 := by
    intro h
    obtain ⟨y, hy, -⟩ := h
    obtain ⟨hylt, hyb⟩ := hwhole.mem_elements.mp hy
    exact Nat.ne_of_gt (hyb ▸ hwhole.blockOf_pos hylt)
  generalize (Partition.whole t.numStates).refine first t.final = result at hsplits hvalid ⊢
  cases hsplits with
  | @none q hnone _ hblock =>
    refine invariant_of_constant (e := first) hvalid (fun x hx => (hblock x).trans (hconst hx)) ?_
    exact fun x hx y hy => (hnone x (hfirst hx)).trans (hnone y (hfirst hy)).symm
  | @all q hsome hall _ hblock =>
    rw [if_neg (hpos hsome)] at hvalid ⊢
    refine invariant_of_constant (e := first) hvalid (fun x hx => (hblock x).trans (hconst hx)) ?_
    exact fun x hx y hy => (hall x (hfirst hx)).trans (hall y (hfirst hy)).symm
  | @both q hsome _ _ hblock =>
    have hne : first ≠ (Partition.whole t.numStates).numBlocks :=
      Nat.ne_of_lt (hfirst_eq ▸ first_lt _)
    rw [if_neg (hpos hsome)] at hvalid ⊢
    refine invariant_of_final hvalid hne List.mem_cons_self fun x hx => ?_
    show q.blockOf x = _
    rw [hblock x hx, hconst hx]
    simp

end Refinement

/-! ## The classes -/

namespace Table

variable {t : Table}

/-- The refinement that `equivalence` ends with. -/
theorem equivalence_invariant (t : Table) :
    ∃ r : Refinement, t.equivalence = r.partition ∧ r.Sound t ∧ r.Covered t [] [] ∧
      r.step? = none := by
  obtain ⟨hsound, hcov⟩ := Refinement.start_invariant t
  obtain ⟨hsound', hcov'⟩ := Refinement.iterate_invariant t.numStates hsound hcov
  exact ⟨_, rfl, hsound', hcov',
    Refinement.step?_iterate_eq_none (Refinement.valid_start t) (Refinement.room_start_le t)⟩

theorem valid_equivalence (t : Table) : t.equivalence.Valid t.numStates := by
  obtain ⟨r, heq, hsound, -⟩ := t.equivalence_invariant
  exact heq ▸ hsound.valid.partition

/-- If the partition respects its own blocks, states of one block are equivalent. -/
theorem equivalent_of_respects {p : Partition}
    (hfinal : ∀ {s s'}, s < t.numStates → s' < t.numStates → p.blockOf s = p.blockOf s' →
      t.final s = t.final s')
    (hnext : ∀ {s s' c}, c < t.numSymbols → s < t.numStates → s' < t.numStates →
      p.blockOf s = p.blockOf s' → p.blockOf (t.next s c) = p.blockOf (t.next s' c))
    {s s' : Nat} (hs : s < t.numStates) (hs' : s' < t.numStates)
    (hblock : p.blockOf s = p.blockOf s') : t.Equivalent s s' := by
  intro word
  induction word generalizing s s' with
  | nil => exact fun _ => hfinal hs hs' hblock
  | cons c word ih =>
    intro hword
    have hc := hword c List.mem_cons_self
    exact ih (t.next_lt hs hc) (t.next_lt hs' hc) (hnext hc hs hs' hblock) fun c' hc' =>
      hword c' (List.mem_cons_of_mem c hc')

/-- Two states have the same block exactly if they are equivalent. -/
theorem blockOf_equivalence_eq_iff {s s' : Nat} (hs : s < t.numStates) (hs' : s' < t.numStates) :
    t.equivalence.blockOf s = t.equivalence.blockOf s' ↔ t.Equivalent s s' := by
  obtain ⟨r, heq, hsound, hcov, hend⟩ := t.equivalence_invariant
  rw [heq]
  refine ⟨fun hblock => ?_, hsound.coarse hs hs'⟩
  have hp := hsound.valid.partition
  rcases Refinement.step?_eq_none hend with hempty | hindex
  · refine equivalent_of_respects hsound.final_eq (fun {s s' c} hc hs hs' hblock => ?_) hs hs' hblock
    have hall := hcov c hc
      (fun x y => x < t.numStates ∧ y < t.numStates ∧ r.partition.blockOf x = r.partition.blockOf y)
      (fun _ _ hrel => hrel) (by simp [hempty]) nofun
    exact ((hall _ s s' ⟨hs, hs', hblock⟩).mpr rfl)
  · rw [hsound.valid.table] at hindex
    rw [hp.blockOf_injective hindex hs hs' hblock]
    exact fun _ _ => rfl

/-- The blocks that hold something correspond to the classes of equivalent states. -/
theorem index_equivalence (t : Table) : t.equivalence.index = Nat.card (Quotient t.nerode) := by
  have hp := t.valid_equivalence
  have hlt : ∀ s : Fin t.numStates, t.equivalence.blockOf s - 1 < t.equivalence.index := by
    intro s
    have := hp.blockOf_lt s.isLt
    have := hp.blockOf_pos s.isLt
    rw [Partition.index]
    omega
  let blockIndex : Quotient t.nerode → Fin t.equivalence.index :=
    Quotient.lift (fun s => ⟨t.equivalence.blockOf s - 1, hlt s⟩) fun s s' hequiv => by
      simp [(blockOf_equivalence_eq_iff s.isLt s'.isLt).mpr hequiv]
  have hbij : Function.Bijective blockIndex := by
    constructor
    · refine Quotient.ind fun s => Quotient.ind fun s' heq => ?_
      have hpos := hp.blockOf_pos s.isLt
      have hpos' := hp.blockOf_pos s'.isLt
      have heq : t.equivalence.blockOf s - 1 = t.equivalence.blockOf s' - 1 := congrArg Fin.val heq
      exact Quotient.sound ((blockOf_equivalence_eq_iff s.isLt s'.isLt).mp (by omega))
    · intro k
      have hk : k.val < t.equivalence.numBlocks - 1 := k.isLt
      obtain ⟨x, hx, hxb⟩ := hp.exists_blockOf_eq (Nat.succ_pos k.val) (by omega)
      exact ⟨Quotient.mk _ ⟨x, hx⟩, Fin.ext (by simp [blockIndex, hxb])⟩
  rw [Nat.card_eq_of_bijective blockIndex hbij, Nat.card_fin]

/-- **Coarsest refinement.** Two states end in the same block exactly if the same words lead from
both to a final state, and the index is the number of classes of such states. -/
theorem equivalence_classes (t : Table) :
    (∀ s s' : Fin t.numStates,
      t.equivalence.blockOf s = t.equivalence.blockOf s' ↔ t.Equivalent s s') ∧
    t.equivalence.index = Nat.card (Quotient t.nerode) :=
  ⟨fun s s' => blockOf_equivalence_eq_iff s.isLt s'.isLt, t.index_equivalence⟩

end Table

end RegularSets
