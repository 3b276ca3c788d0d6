import RegularSets.Text

/-!
# Sparse sets

A set of small numbers with insertion, membership and clearing in constant time. `slots` says for
each number where it would stand among the members, and the members confirm it: clearing drops the
members alone and leaves the slots as they are, since a slot counts only if the member that it points
to points back.
-/

namespace RegularSets

/-- A set of numbers below a bound, kept in the order of insertion. -/
structure SparseSet where
  /-- For each number, a place among the members; it may be out of date. -/
  slots : Array Nat
  /-- The elements in the order of insertion. -/
  members : Array Nat
  deriving Repr, DecidableEq

namespace SparseSet

/-- The empty set of numbers below `bound`. -/
def empty (bound : Nat) : SparseSet :=
  { slots := Array.replicate bound 0, members := #[] }

/-- `x` is an element if its slot points to a member that is `x`. -/
def contains (set : SparseSet) (x : Nat) : Bool :=
  match set.slots[x]? with
  | none => false
  | some place => set.members[place]? = some x

/-- Add `x` as the last element, unless it is there. -/
def insert (set : SparseSet) (x : Nat) : SparseSet :=
  if set.contains x then set
  else
    { slots := set.slots.setIfInBounds x set.members.size
      members := set.members.push x }

/-- Remove all elements and keep the slots. -/
def clear (set : SparseSet) : SparseSet :=
  { set with members := #[] }

/-- The elements in the order of insertion. -/
def toList (set : SparseSet) : List Nat :=
  set.members.toList

/-- A call of a set. -/
inductive Call
  | insert (x : Nat)
  | contains (x : Nat)
  | clear
  deriving Repr, DecidableEq

/-- The number that a call is about. -/
def Call.argument? : Call → Option Nat
  | insert x => some x
  | contains x => some x
  | clear => none

/-- What a call answers, and the set after it. The answer to an insertion is whether the number is
new; clearing answers nothing. -/
def perform (set : SparseSet) : Call → Option Bool × SparseSet
  | .insert x => (some (!set.contains x), set.insert x)
  | .contains x => (some (set.contains x), set)
  | .clear => (none, set.clear)

/-- The set after several calls. -/
def performAll (set : SparseSet) (calls : List Call) : SparseSet :=
  calls.foldl (fun set call => (set.perform call).2) set

/-- Shown as the elements in the order of insertion between braces. -/
def render (set : SparseSet) : String :=
  Text.braced (set.toList.map toString)

@[simp]
theorem toList_empty (bound : Nat) : (empty bound).toList = [] := rfl

@[simp]
theorem toList_clear (set : SparseSet) : set.clear.toList = [] := rfl

theorem toList_insert (set : SparseSet) (x : Nat) :
    (set.insert x).toList = if set.contains x then set.toList else set.toList ++ [x] := by
  unfold insert toList
  split <;> simp

end SparseSet

end RegularSets
