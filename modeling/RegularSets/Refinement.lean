import RegularSets.Partition
import RegularSets.SparseSet

/-!
# The coarsest refinement

Two states of a complete deterministic table are equivalent if the same words lead from them to a
final state. `Table.equivalence` finds the classes by refining the partition into final and other
states: as long as some block is on the worklist, it is taken off, and for every symbol the states
that the symbol leads into the block split every block that they cut. Of a block that splits, both
parts have to be looked at if the block itself was still waiting, and the smaller part otherwise.

States are natural numbers here. A program that keeps them in 32 bits agrees as long as the table has fewer
than 2 ^ 32 - 1 states, since the set of the blocks that are cut has room for one more number.
-/

namespace RegularSets

/-- A complete deterministic transition table over numbered states and symbols. -/
structure Table where
  numStates : Nat
  numSymbols : Nat
  next : Nat → Nat → Nat
  final : Nat → Bool
  /-- Transitions stay inside the table. -/
  next_lt : ∀ {s c : Nat}, s < numStates → c < numSymbols → next s c < numStates

/-- If all cells of a table of numbers are below a bound, so is whatever is looked up in it. -/
theorem cell_lt {rows : List (List Nat)} {fallback bound s c : Nat} (h : fallback < bound)
    (hrows : ∀ row ∈ rows, ∀ x ∈ row, x < bound) :
    ((rows.map List.toArray).toArray.getD s #[]).getD c fallback < bound := by
  rcases hs : rows[s]? with _ | row
  · simp [hs, h]
  · rcases hc : row[c]? with _ | x
    · simp [hs, hc, h]
    · simpa [hs, hc] using hrows row (List.mem_of_getElem? hs) x (List.mem_of_getElem? hc)

namespace Table

/-- The state that a word of symbols leads to. -/
def run (t : Table) (s : Nat) (word : List Nat) : Nat :=
  word.foldl t.next s

/-- For each symbol `c` and state `s`, the states that `c` leads to `s`. -/
def sources (t : Table) : Array (Array (List Nat)) :=
  (Array.range t.numSymbols).map fun c =>
    (List.range t.numStates).foldr (fun s lists => lists.modify (t.next s c) (s :: ·))
      (Array.replicate t.numStates [])

/-- The table whose row `s` lists the targets of `s`, if every row has `numSymbols` targets and all
of them are states. -/
def ofRows? (numStates numSymbols : Nat) (rows : List (List Nat)) (final : List Nat) :
    Option Table :=
  let cells := (rows.map List.toArray).toArray
  let next := fun s c => (cells.getD s #[]).getD c 0
  if rows.length = numStates ∧ ∀ row ∈ rows, row.length = numSymbols then
    if h : ∀ s < numStates, ∀ c < numSymbols, next s c < numStates then
      some
        { numStates, numSymbols, next
          final := fun s => final.contains s
          next_lt := fun hs hc => h _ hs _ hc }
    else none
  else none

end Table

/-- A partition of the states of a table on its way to the coarsest refinement. -/
structure Refinement where
  table : Table
  sources : Array (Array (List Nat))
  partition : Partition
  /-- The blocks still to be used as splitters, the next one first. -/
  worklist : List Nat
  /-- Is a block on the worklist? -/
  pending : Array Bool
  /-- The states that the symbol in use leads into the splitter; cleared for every symbol. -/
  led : SparseSet
  /-- The blocks that these states may cut; cleared for every symbol. -/
  cut : SparseSet

namespace Refinement

/-- Put block `b` on the worklist. -/
def enqueue (r : Refinement) (b : Nat) : Refinement :=
  { r with worklist := b :: r.worklist, pending := r.pending.setIfInBounds b true }

/-- Final and other states apart; the final ones are the first splitter. -/
def start (t : Table) : Refinement :=
  let all := Partition.whole t.numStates
  let (partition, parts) := all.refine (min all.index 1) t.final
  let r : Refinement :=
    { table := t
      sources := t.sources
      partition
      worklist := []
      pending := Array.replicate (t.numStates + 1) false
      led := SparseSet.empty t.numStates
      cut := SparseSet.empty (t.numStates + 1) }
  if parts.kept = 0 then r else r.enqueue parts.kept

/-- The states that symbol `c` leads into `splitter`. -/
def predecessors (r : Refinement) (splitter : List Nat) (c : Nat) : SparseSet :=
  let lists := r.sources.getD c #[]
  splitter.foldl (fun set t => (lists.getD t []).foldl SparseSet.insert set) r.led.clear

/-- The blocks of at least two elements that meet a set of states. -/
def candidates (r : Refinement) (states : SparseSet) : SparseSet :=
  states.toList.foldl (fun set s =>
    let b := r.partition.blockOf s
    if 1 < r.partition.blockSize b then set.insert b else set) r.cut.clear

/-- Split block `d` by a set of states. -/
def split (states : SparseSet) (r : Refinement) (d : Nat) : Refinement :=
  let (partition, parts) := r.partition.refine d states.contains
  if parts.kept = 0 ∨ parts.moved = 0 then r
  else
    let r := { r with partition }
    if r.pending.getD d false then r.enqueue parts.moved
    else if partition.noLarger parts.kept parts.moved then r.enqueue parts.kept
    else r.enqueue parts.moved

/-- Split every block that the states led into `splitter` by `c` cut. -/
def splitBy (splitter : List Nat) (r : Refinement) (c : Nat) : Refinement :=
  let led := r.predecessors splitter c
  let cut := r.candidates led
  cut.toList.foldl (split led) { r with led, cut }

/-- Use up one block of the worklist. There is nothing to do if none is left or if every block
holds one state. -/
def step? (r : Refinement) : Option Refinement :=
  match r.worklist with
  | [] => none
  | b :: rest =>
    if r.partition.index = r.table.numStates then none
    else
      let splitter := r.partition.elements b
      let r := { r with worklist := rest, pending := r.pending.setIfInBounds b false }
      some ((List.range r.table.numSymbols).foldl (splitBy splitter) r)

/-- At most `fuel` steps. -/
def iterate : Nat → Refinement → Refinement
  | 0, r => r
  | fuel + 1, r =>
    match r.step? with
    | none => r
    | some r' => iterate fuel r'

/-- The sizes of the table, the blocks, and the blocks on the worklist from the oldest. -/
def render (r : Refinement) : String :=
  "Minimizer: " ++ toString r.table.numStates ++ " states, " ++ toString r.table.numSymbols
    ++ " chars\n" ++ r.partition.render
    ++ "worklist:" ++ Text.spaced (r.worklist.reverse.map toString) ++ "\n"

end Refinement

/-- The classes of equivalent states. Every block that enters the worklist comes from a split, and
there are fewer splits than states, so as many steps as there are states empty the worklist. -/
def Table.equivalence (t : Table) : Partition :=
  ((Refinement.start t).iterate t.numStates).partition

end RegularSets
