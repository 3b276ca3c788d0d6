import RegularSets.Text

/-!
# Partitions

The numbers below `n` cut into blocks. All numbers stand in one array, the *segment*, with the numbers
of a block side by side, so that a block is a slice of the segment. Block 0 is always empty, so that 0
can stand for "no block"; the other blocks are numbered from 1 in the order in which they arise.

`refine` splits one block by a predicate, in place: what satisfies it is gathered at the front of the
block's slice and stays, the rest becomes a new block.
-/

namespace RegularSets

/-- The places from `start` up to `stop`, which is excluded. -/
structure Slice where
  start : Nat
  stop : Nat
  deriving Repr, DecidableEq

/-- A segment in which the numbers that satisfy a predicate are moved to the front of a slice; they
stand before `split`. -/
structure Gathering where
  segment : Array Nat
  split : Nat
  deriving Repr, DecidableEq

namespace Gathering

/-- Look at the number at a place, and swap it to the front if it satisfies the predicate. -/
def visit (keep : Nat → Bool) (g : Gathering) (place : Nat) : Gathering :=
  if keep (g.segment.getD place 0) then
    { segment := g.segment.swapIfInBounds place g.split, split := g.split + 1 }
  else g

/-- Look at all numbers of a slice, one after the other. -/
def sweep (keep : Nat → Bool) (segment : Array Nat) (s : Slice) : Gathering :=
  (List.range' s.start (s.stop - s.start)).foldl (visit keep) { segment, split := s.start }

end Gathering

/-- Blocks of numbers, and for each number the block that holds it. -/
structure Partition where
  /-- The slice of each block; that of block 0 is empty. -/
  blocks : Array Slice
  /-- The numbers, block by block. -/
  segment : Array Nat
  /-- The block of each number. -/
  ids : Array Nat
  deriving Repr, DecidableEq

namespace Partition

/-- All numbers below `n` in block 1. -/
def whole (n : Nat) : Partition :=
  { blocks := if n = 0 then #[⟨0, 0⟩] else #[⟨0, 0⟩, ⟨0, n⟩]
    segment := Array.range n
    ids := Array.replicate n 1 }

/-- The number of blocks, the empty block 0 included. -/
def numBlocks (p : Partition) : Nat :=
  p.blocks.size

/-- The number of blocks that hold something. -/
def index (p : Partition) : Nat :=
  p.numBlocks - 1

/-- The slice of block `i`; empty if there is no such block. -/
def slice (p : Partition) (i : Nat) : Slice :=
  p.blocks.getD i ⟨0, 0⟩

def blockSize (p : Partition) (i : Nat) : Nat :=
  (p.slice i).stop - (p.slice i).start

/-- The elements of block `i`, in no particular order. -/
def elements (p : Partition) (i : Nat) : List Nat :=
  (p.segment.extract (p.slice i).start (p.slice i).stop).toList

/-- Has block `i` no more elements than block `j`? -/
def noLarger (p : Partition) (i j : Nat) : Bool :=
  p.blockSize i ≤ p.blockSize j

/-- The block that holds `x`. -/
def blockOf (p : Partition) (x : Nat) : Nat :=
  p.ids.getD x 0

/-- The smallest element of block `i`. -/
def representative (p : Partition) (i : Nat) : Nat :=
  (p.elements i).min?.getD 0

/-- The parts into which block `i` falls under a predicate: the block of those that satisfy it and
the block of the others, 0 standing for an empty part. -/
structure Parts where
  kept : Nat
  moved : Nat
  deriving Repr, DecidableEq

/-- Split block `i`: the elements that satisfy `keep` stay and the others move to a new block. If
one of the two parts is empty, every block keeps its elements. -/
def refine (p : Partition) (i : Nat) (keep : Nat → Bool) : Partition × Parts :=
  let s := p.slice i
  let g := Gathering.sweep keep p.segment s
  let j := p.numBlocks
  if g.split = s.start then ({ p with segment := g.segment }, ⟨0, i⟩)
  else if g.split = s.stop then ({ p with segment := g.segment }, ⟨i, 0⟩)
  else
    ({ blocks := (p.blocks.setIfInBounds i ⟨s.start, g.split⟩).push ⟨g.split, s.stop⟩
       segment := g.segment
       ids := (g.segment.extract g.split s.stop).foldl (fun ids x => ids.setIfInBounds x j) p.ids },
      ⟨i, j⟩)

/-- The blocks that hold something, each in increasing order, by their smallest element. -/
def classes (p : Partition) : List (List Nat) :=
  let leaders := (List.range p.ids.size).filter fun x => p.representative (p.blockOf x) = x
  leaders.map fun x => (p.elements (p.blockOf x)).mergeSort

/-- One line for each block that holds something. -/
def render (p : Partition) : String :=
  Text.lines ((List.range' 1 p.index).map fun i =>
    "block[" ++ toString i ++ "]:" ++ Text.spaced ((p.elements i).mergeSort.map toString))

end Partition

end RegularSets
