import Mathlib.Logic.Relation
import RegularSets.Proofs.Refinement.Coarsest

/-!
# Every moment of a refinement

`Refinement.iterate` makes a whole round at a time, and takes a cell that does not exist for an empty one.
Here the rounds are taken apart into single moves (`Moment.move`), and every access to the sources, to the
marks of waiting blocks and to the slots of the two sparse sets is checked: a move that would miss a cell
leads nowhere (`Outcome.outOfRange`).

`Moment.Valid` holds at every moment of a run and gives each checked access its cell. So a checked
function gives what the unchecked one does (`predecessors?_eq_some`, `candidates?_eq_some`,
`split?_eq_some`), and a run goes through the rounds of `iterate` (`reaches_round`). From one moment to the
next the worklist changes by one block at most, and it gets longer only if the partition gets one more
block (`Balanced`); this is why the rounds come to an end.
-/

namespace RegularSets

/-- Steps that may fail do not if each of them succeeds where it is taken. -/
theorem foldlM_eq_some {σ α : Type} {f? : σ → α → Option σ} {f : σ → α → σ} (inv : σ → Prop)
    {xs : List α} (hstep : ∀ x ∈ xs, ∀ s, inv s → f? s x = some (f s x) ∧ inv (f s x)) {s : σ}
    (hs : inv s) : xs.foldlM f? s = some (xs.foldl f s) := by
  induction xs generalizing s with
  | nil => rfl
  | cons x xs ih =>
    obtain ⟨hfirst, hinv⟩ := hstep x List.mem_cons_self s hs
    rw [List.foldlM_cons, hfirst, List.foldl_cons]
    exact ih (fun y hy => hstep y (List.mem_cons_of_mem x hy)) hinv

/-- Insert a number that has a slot. -/
def SparseSet.insert? (set : SparseSet) (x : Nat) : Option SparseSet :=
  if x < set.slots.size then some (set.insert x) else none

theorem SparseSet.insert?_eq_some {set : SparseSet} {bound x : Nat} (h : set.Valid bound)
    (hx : x < bound) : set.insert? x = some (set.insert x) :=
  if_pos (h.size_slots.symm ▸ hx)

namespace Refinement

/-! ## Checked accesses -/

/-- `enqueue` for a block that can be marked. -/
def enqueue? (r : Refinement) (b : Nat) : Option Refinement :=
  if b < r.pending.size then some (r.enqueue b) else none

/-- `predecessors` with each access checked. -/
def predecessors? (r : Refinement) (splitter : List Nat) (c : Nat) : Option SparseSet := do
  let lists ← r.sources[c]?
  splitter.foldlM (fun set x => do
    let states ← lists[x]?
    states.foldlM SparseSet.insert? set) r.led.clear

/-- `candidates` with each access checked. -/
def candidates? (r : Refinement) (states : SparseSet) : Option SparseSet :=
  states.toList.foldlM (fun set s => do
    let b ← r.partition.ids[s]?
    let slice ← r.partition.blocks[b]?
    if 1 < slice.stop - slice.start then set.insert? b else some set) r.cut.clear

/-- `split` with each access checked. The set is asked for every element of the block. -/
def split? (states : SparseSet) (r : Refinement) (d : Nat) : Option Refinement :=
  if ∀ x ∈ r.partition.elements d, x < states.slots.size then
    let (partition, parts) := r.partition.refine d states.contains
    if parts.kept = 0 ∨ parts.moved = 0 then some r
    else do
      let r := { r with partition }
      if ← r.pending[d]? then r.enqueue? parts.moved
      else if partition.noLarger parts.kept parts.moved then r.enqueue? parts.kept
      else r.enqueue? parts.moved
  else none

variable {r : Refinement} {t : Table}

theorem Valid.predecessors?_eq_some (h : r.Valid t) {splitter : List Nat} {c : Nat}
    (hc : c < t.numSymbols) (hs : ∀ x ∈ splitter, x < t.numStates) :
    r.predecessors? splitter c = some (r.predecessors splitter c) := by
  rw [predecessors?, h.sources, t.getElem?_sources hc, predecessors, h.sources]
  refine foldlM_eq_some (·.Valid t.numStates) (fun x hx set hset => ?_) (SparseSet.valid_clear h.led)
  have hlt : ∀ s ∈ (t.sources.getD c #[]).getD x [], s < t.numStates := fun s hmem =>
    ((t.mem_sources hc (hs x hx)).mp hmem).1
  refine ⟨?_, SparseSet.valid_foldl_insert hset hlt⟩
  rw [t.getElem?_sources_getD hc (hs x hx)]
  exact foldlM_eq_some (·.Valid t.numStates) (fun s hmem set hset =>
    ⟨SparseSet.insert?_eq_some hset (hlt s hmem), SparseSet.valid_insert hset (hlt s hmem)⟩) hset

theorem Valid.candidates?_eq_some (h : r.Valid t) {states : SparseSet}
    (hstates : states.Valid t.numStates) : r.candidates? states = some (r.candidates states) := by
  rw [candidates?, candidates]
  refine foldlM_eq_some (·.Valid (t.numStates + 1)) (fun s hs set hset => ?_)
    (SparseSet.valid_clear h.cut)
  have hlt := h.partition.blockOf_lt (hstates.lt_of_mem hs)
  have hbound := Nat.lt_of_lt_of_le hlt h.partition.numBlocks_le
  rw [h.partition.getElem?_ids (hstates.lt_of_mem hs)]
  dsimp only [bind, Option.bind]
  rw [Partition.getElem?_blocks hlt]
  dsimp only
  by_cases hsize : 1 < r.partition.blockSize (r.partition.blockOf s)
  · have hslice : 1 < (r.partition.slice (r.partition.blockOf s)).stop -
        (r.partition.slice (r.partition.blockOf s)).start := hsize
    rw [if_pos hslice, if_pos hsize]
    exact ⟨SparseSet.insert?_eq_some hset hbound, SparseSet.valid_insert hset hbound⟩
  · have hslice : ¬1 < (r.partition.slice (r.partition.blockOf s)).stop -
        (r.partition.slice (r.partition.blockOf s)).start := hsize
    rw [if_neg hslice, if_neg hsize]
    exact ⟨rfl, hset⟩

theorem Valid.getElem?_pending (h : r.Valid t) {b : Nat} (hb : b ≤ t.numStates) :
    r.pending[b]? = some (r.pending.getD b false) :=
  getElem?_eq_some_getD (h.size_pending.symm ▸ Nat.lt_succ_of_le hb) false

/-- Both the block that is split and the new one can be marked, since the partition after the split, too,
has no more blocks than there are marks. -/
theorem Valid.split?_eq_some (h : r.Valid t) {states : SparseSet} (hstates : states.Valid t.numStates)
    {d : Nat} (hd : d < r.partition.numBlocks) : split? states r d = some (Refinement.split states r d) := by
  have hasked : ∀ x ∈ r.partition.elements d, x < states.slots.size := fun x hx =>
    hstates.size_slots.symm ▸ h.elements_lt d x hx
  have hvalid := Partition.valid_refine h.partition hd states.contains
  have hsplits := Partition.splits_refine h.partition hd states.contains
  rw [split?, if_pos hasked, Refinement.split]
  generalize r.partition.refine d states.contains = result at hvalid hsplits ⊢
  cases hsplits with
  | none => simp
  | all => simp
  | @both q hsome hother hnum hblock =>
    have hle : q.numBlocks ≤ t.numStates + 1 := hvalid.numBlocks_le
    have henqueue : ∀ {b}, b < t.numStates + 1 →
        ({ r with partition := q } : Refinement).enqueue? b =
          some (({ r with partition := q } : Refinement).enqueue b) := fun hb =>
      if_pos (h.size_pending.symm ▸ hb)
    have hkept := henqueue (b := d) (by omega)
    have hmoved := henqueue (b := r.partition.numBlocks) (by omega)
    have hpending := h.getElem?_pending (b := d) (by omega)
    dsimp only
    split
    · rfl
    · rw [hpending]
      dsimp only [bind, Option.bind]
      split
      · exact hmoved
      · split
        · exact hkept
        · exact hmoved

/-! ## Moves -/

/-- How far a run has come in its round. -/
inductive Stage
  /-- Between two rounds. -/
  | round
  /-- A splitter, and the symbols still to be used with it. -/
  | symbols (splitter todo : List Nat)
  /-- Besides, the blocks still to be split by the states that a symbol leads into the splitter. -/
  | blocks (splitter todo candidates : List Nat)

/-- A refinement on its way through a run. -/
structure Moment where
  refinement : Refinement
  stage : Stage

/-- What a move leads to. -/
inductive Outcome
  | next (m : Moment)
  /-- The run is over. -/
  | done (p : Partition)
  /-- An access misses its cell. -/
  | outOfRange

namespace Moment

/-- Before the first round. -/
def start (t : Table) : Moment :=
  ⟨Refinement.start t, .round⟩

/-- Take a block off the worklist, use a symbol, split a block, or go on to the next of these. -/
def move : Moment → Outcome
  | ⟨r, .round⟩ =>
    match r.worklist with
    | [] => .done r.partition
    | b :: rest =>
      if b < r.pending.size then
        if r.partition.index = r.table.numStates then .done r.partition
        else
          .next ⟨r.pop b rest, .symbols (r.partition.elements b) (List.range r.table.numSymbols)⟩
      else .outOfRange
  | ⟨r, .symbols _ []⟩ => .next ⟨r, .round⟩
  | ⟨r, .symbols splitter (c :: todo)⟩ =>
    match r.predecessors? splitter c with
    | none => .outOfRange
    | some led =>
      match r.candidates? led with
      | none => .outOfRange
      | some cut => .next ⟨{ r with led, cut }, .blocks splitter todo cut.toList⟩
  | ⟨r, .blocks splitter todo []⟩ => .next ⟨r, .symbols splitter todo⟩
  | ⟨r, .blocks splitter todo (d :: candidates)⟩ =>
    match split? r.led r d with
    | none => .outOfRange
    | some r => .next ⟨r, .blocks splitter todo candidates⟩

/-- Some number of moves leads from the first moment to the second. -/
def Reaches : Moment → Moment → Prop :=
  Relation.ReflTransGen fun m m' => m.move = .next m'

end Moment

/-- What is still to be done in a round are states, symbols and blocks that exist. -/
def Stage.Within (t : Table) (numBlocks : Nat) : Stage → Prop
  | round => True
  | symbols splitter todo => (∀ x ∈ splitter, x < t.numStates) ∧ ∀ c ∈ todo, c < t.numSymbols
  | blocks splitter todo candidates =>
    (∀ x ∈ splitter, x < t.numStates) ∧ (∀ c ∈ todo, c < t.numSymbols) ∧
      ∀ d ∈ candidates, d < numBlocks

/-- What holds at every moment of a run. -/
structure Moment.Valid (m : Moment) (t : Table) : Prop where
  refinement : m.refinement.Valid t
  within : m.stage.Within t m.refinement.partition.numBlocks

/-- From one moment to the next a block may be taken off the worklist, or one may be put there; the latter
is paid for by a block more. -/
inductive Balanced (r r' : Refinement) : Prop
  | same (worklist : r'.worklist = r.worklist) (partition : r'.partition = r.partition)
  | taken (b : Nat) (worklist : r.worklist = b :: r'.worklist) (partition : r'.partition = r.partition)
  | added (b : Nat) (worklist : r'.worklist = b :: r.worklist)
      (numBlocks : r'.partition.numBlocks = r.partition.numBlocks + 1)

variable {r' : Refinement} {splitter todo candidates : List Nat} {c d : Nat}

theorem Valid.balanced_split (h : r.Valid t) {states : SparseSet} (hstates : states.Valid t.numStates)
    (hd : d < r.partition.numBlocks) : Balanced r (Refinement.split states r d) := by
  rcases split_cases h hstates hd with ⟨heq, -⟩ | ⟨q, b, heq, hdiv, -⟩
  · rw [heq]
    exact .same rfl rfl
  · rw [heq]
    exact .added b rfl hdiv.numBlocks

namespace Moment

theorem move_symbols_cons (h : r.Valid t) (hs : ∀ x ∈ splitter, x < t.numStates)
    (hc : c < t.numSymbols) :
    move ⟨r, .symbols splitter (c :: todo)⟩ =
      .next ⟨{ r with
          led := r.predecessors splitter c
          cut := r.candidates (r.predecessors splitter c) },
        .blocks splitter todo (r.candidates (r.predecessors splitter c)).toList⟩ := by
  rw [move, h.predecessors?_eq_some hc hs]
  dsimp only
  rw [h.candidates?_eq_some (predecessors_spec h hc hs).1]

theorem move_blocks_cons (h : r.Valid t) (hd : d < r.partition.numBlocks) :
    move ⟨r, .blocks splitter todo (d :: candidates)⟩ =
      .next ⟨split r.led r d, .blocks splitter todo candidates⟩ := by
  rw [move, h.split?_eq_some h.led hd]

theorem move_round (h : r.Valid t) {b : Nat} {rest : List Nat} (hw : r.worklist = b :: rest) :
    move ⟨r, .round⟩ =
      if r.partition.index = r.table.numStates then .done r.partition
      else
        .next ⟨r.pop b rest, .symbols (r.partition.elements b) (List.range r.table.numSymbols)⟩ := by
  have hb : b < r.pending.size := by
    have hlt := h.worklist_lt (hw ▸ List.mem_cons_self)
    exact h.size_pending.symm ▸ Nat.lt_of_lt_of_le hlt h.partition.numBlocks_le
  simp only [move, hw, if_pos hb]

/-- A move from a valid moment ends the run or leads to a valid moment. One case for each stage. -/
theorem Valid.move_cases {m : Moment} (h : m.Valid t) :
    (∃ p, m.move = .done p) ∨
      ∃ m', m.move = .next m' ∧ m'.Valid t ∧ Balanced m.refinement m'.refinement := by
  obtain ⟨r, stage⟩ := m
  have hr : r.Valid t := h.refinement
  have hwithin : stage.Within t r.partition.numBlocks := h.within
  clear h
  cases stage with
  | round =>
    cases hw : r.worklist with
    | nil => exact Or.inl ⟨r.partition, by simp only [move, hw]⟩
    | cons b rest =>
      have hmove := move_round hr hw
      by_cases hindex : r.partition.index = r.table.numStates
      · exact Or.inl ⟨r.partition, by rw [hmove, if_pos hindex]⟩
      · have htodo : ∀ c ∈ List.range r.table.numSymbols, c < t.numSymbols := fun c hc =>
          hr.table ▸ List.mem_range.mp hc
        exact Or.inr ⟨_, hmove.trans (if_neg hindex), ⟨hr.pop hw, hr.elements_lt b, htodo⟩,
          .taken b hw rfl⟩
  | symbols splitter todo =>
    obtain ⟨hs, htodo⟩ := hwithin
    cases todo with
    | nil => exact Or.inr ⟨_, rfl, ⟨hr, trivial⟩, .same rfl rfl⟩
    | cons c todo =>
      obtain ⟨hc, htodo⟩ := List.forall_mem_cons.mp htodo
      have hled := (predecessors_spec hr hc hs).1
      exact Or.inr ⟨_, move_symbols_cons hr hs hc,
        ⟨hr.scratch hled (candidates_spec hr hled).1, hs, htodo, candidates_lt hr hled⟩,
        .same rfl rfl⟩
  | blocks splitter todo candidates =>
    obtain ⟨hs, htodo, hcandidates⟩ := hwithin
    cases candidates with
    | nil => exact Or.inr ⟨_, rfl, ⟨hr, hs, htodo⟩, .same rfl rfl⟩
    | cons d candidates =>
      obtain ⟨hd, hcandidates⟩ := List.forall_mem_cons.mp hcandidates
      obtain ⟨hvalid, -, hle⟩ := hr.split hr.led hd
      have hbalanced := hr.balanced_split hr.led hd
      refine Or.inr ⟨_, move_blocks_cons hr hd, ?_⟩
      generalize split r.led r d = r' at hvalid hle hbalanced ⊢
      exact ⟨⟨hvalid, hs, htodo, fun d' hd' => Nat.lt_of_lt_of_le (hcandidates d' hd') hle⟩, hbalanced⟩

theorem valid_round (h : r.Valid t) : Valid ⟨r, .round⟩ t :=
  ⟨h, trivial⟩

theorem valid_start (t : Table) : (start t).Valid t :=
  valid_round (Refinement.valid_start t)

theorem Valid.reaches {m m' : Moment} (h : m.Valid t) (hreaches : m.Reaches m') : m'.Valid t := by
  induction hreaches with
  | refl => exact h
  | tail _ hmove ih =>
    rcases ih.move_cases with ⟨p, hdone⟩ | ⟨m', hnext, hvalid, -⟩
    · rw [hdone] at hmove
      cases hmove
    · rw [hnext] at hmove
      cases hmove
      exact hvalid

/-! ## Rounds -/

/-- Splitting a block leaves the set of states that it is split by. -/
theorem led_split (states : SparseSet) (r : Refinement) (d : Nat) : (split states r d).led = r.led := by
  unfold split
  generalize r.partition.refine d states.contains = result
  dsimp only
  split
  · rfl
  · split
    · rfl
    · split <;> rfl

theorem reaches_blocks (h : r.Valid t) {candidates : List Nat}
    (hcandidates : ∀ d ∈ candidates, d < r.partition.numBlocks) :
    Reaches ⟨r, .blocks splitter todo candidates⟩
      ⟨candidates.foldl (split r.led) r, .symbols splitter todo⟩ := by
  induction candidates generalizing r with
  | nil => exact .single rfl
  | cons d candidates ih =>
    obtain ⟨hd, hrest⟩ := List.forall_mem_cons.mp hcandidates
    obtain ⟨hvalid, -, hle⟩ := h.split h.led hd
    have hreaches := ih hvalid fun d' hd' => Nat.lt_of_lt_of_le (hrest d' hd') hle
    -- the fold splits by one set throughout, the moves by the set that the refinement holds
    rw [led_split] at hreaches
    exact .head (move_blocks_cons h hd) hreaches

theorem reaches_symbols (h : r.Valid t) (hs : ∀ x ∈ splitter, x < t.numStates) {todo : List Nat}
    (htodo : ∀ c ∈ todo, c < t.numSymbols) :
    Reaches ⟨r, .symbols splitter todo⟩ ⟨todo.foldl (splitBy splitter) r, .round⟩ := by
  induction todo generalizing r with
  | nil => exact .single rfl
  | cons c todo ih =>
    obtain ⟨hc, hrest⟩ := List.forall_mem_cons.mp htodo
    have hled := (predecessors_spec h hc hs).1
    have hblocks : Reaches _ ⟨r.splitBy splitter c, .symbols splitter todo⟩ :=
      reaches_blocks (h.scratch hled (candidates_spec h hled).1) (candidates_lt h hled)
    exact .head (move_symbols_cons h hs hc) (hblocks.trans (ih (h.splitBy hc hs).1 hrest))

/-- A round is made of moves. -/
theorem reaches_round (h : r.Valid t) (hstep : r.step? = some r') :
    Reaches ⟨r, .round⟩ ⟨r', .round⟩ := by
  obtain ⟨b, rest, hw, rfl⟩ := step?_eq_some hstep
  have hindex : r.partition.index ≠ r.table.numStates := fun heq => by simp [step?, hw, heq] at hstep
  refine .head ((move_round h hw).trans (if_neg hindex))
    (reaches_symbols (h.pop hw) (h.elements_lt b) fun c hc => ?_)
  exact h.table ▸ List.mem_range.mp hc

theorem reaches_iterate (h : r.Valid t) (fuel : Nat) :
    Reaches ⟨r, .round⟩ ⟨r.iterate fuel, .round⟩ := by
  induction fuel generalizing r with
  | zero => exact .refl
  | succ fuel ih =>
    rw [Refinement.iterate]
    split
    · exact .refl
    · next hstep => exact (reaches_round h hstep).trans (ih (h.step hstep).1)

/-- A run is over when there is no further round. -/
theorem move_of_step?_eq_none (h : r.Valid t) (hstep : r.step? = none) :
    move ⟨r, .round⟩ = .done r.partition := by
  cases hw : r.worklist with
  | nil => simp only [move, hw]
  | cons b rest =>
    have hindex : r.partition.index = r.table.numStates :=
      (step?_eq_none hstep).resolve_left (by rw [hw]; exact List.cons_ne_nil b rest)
    rw [move_round h hw, if_pos hindex]

end Moment

/-! ## What a run keeps -/

/-- Exactly the blocks on the worklist are marked; they exist and hold something, and each of them waits
once. There are no more blocks than marks. -/
structure Consistent (r : Refinement) (t : Table) : Prop where
  pending_eq : ∀ b ≤ t.numStates, r.pending[b]? = some (decide (b ∈ r.worklist))
  nodup_worklist : r.worklist.Nodup
  block : ∀ b ∈ r.worklist, b < r.partition.numBlocks ∧ r.partition.elements b ≠ []
  numBlocks_le : r.partition.numBlocks ≤ t.numStates + 1

theorem Valid.consistent (h : r.Valid t) : r.Consistent t where
  pending_eq b hb := by
    rw [h.getElem?_pending hb, Option.some_inj, Bool.eq_iff_iff, h.pending_iff, decide_eq_true_iff]
  nodup_worklist := h.nodup_worklist
  block _ hb := ⟨h.worklist_lt hb, h.partition.elements_ne_nil (h.worklist_pos hb) (h.worklist_lt hb)⟩
  numBlocks_le := h.partition.numBlocks_le

/-- **Runs.** At every moment of the refinement of any table the worklist, its marks and the blocks agree,
no access misses its cell, and a move that puts a block on the worklist makes a block more. After as many
rounds as there are states the run is over, and its partition is `equivalence`. -/
theorem reaches_spec (t : Table) :
    (∀ m, (Moment.start t).Reaches m →
      m.refinement.Consistent t ∧ m.move ≠ .outOfRange ∧
        ∀ m', m.move = .next m' → Balanced m.refinement m'.refinement) ∧
      (Moment.start t).Reaches ⟨(start t).iterate t.numStates, .round⟩ ∧
      Moment.move ⟨(start t).iterate t.numStates, .round⟩ = .done t.equivalence := by
  have hstart := valid_start t
  refine ⟨fun m hreaches => ?_, Moment.reaches_iterate hstart t.numStates,
    Moment.move_of_step?_eq_none (hstart.iterate t.numStates)
      (step?_iterate_eq_none hstart (room_start_le t))⟩
  have hvalid := (Moment.valid_start t).reaches hreaches
  refine ⟨hvalid.refinement.consistent, ?_⟩
  rcases hvalid.move_cases with ⟨p, hdone⟩ | ⟨m', hnext, -, hbalanced⟩
  · rw [hdone]
    exact ⟨Outcome.noConfusion, nofun⟩
  · rw [hnext]
    exact ⟨Outcome.noConfusion, fun m'' heq => Outcome.next.inj heq ▸ hbalanced⟩

/-- A chain of states to a final one, entered at its start and once more at its second state. -/
def chain : Table where
  numStates := 5
  numSymbols := 1
  next s _ := [1, 2, 3, 3, 2].getD s 0
  final s := s = 3
  next_lt := by
    intro s c hs _
    revert s
    decide

theorem reaches_spec_chain :
    (start chain).worklist = [1] ∧ ((start chain).iterate 1).worklist = [2] ∧
      chain.equivalence.elements 3 = [1, 4] ∧
      (∀ m, (Moment.start chain).Reaches m →
        m.refinement.Consistent chain ∧ m.move ≠ .outOfRange ∧
          ∀ m', m.move = .next m' → Balanced m.refinement m'.refinement) ∧
      (Moment.start chain).Reaches ⟨(start chain).iterate 5, .round⟩ ∧
      Moment.move ⟨(start chain).iterate 5, .round⟩ = .done chain.equivalence :=
  ⟨by decide +kernel, by decide +kernel, by decide +kernel, reaches_spec chain⟩

end Refinement

end RegularSets
