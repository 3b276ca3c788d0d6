/-!
# Queues that take every element once

A `Queue` serves breadth-first exploration: it hands out elements in the order in which they were
put in, and it refuses an element that it has ever held. `explore` follows the neighbours of the
elements of a queue until nothing new is found and lists all of them in the order of discovery.
-/

namespace RegularSets

/-- A first-in first-out queue that remembers what it handed out. -/
structure Queue (α : Type) where
  /-- The elements handed out, the latest first. -/
  taken : List α := []
  /-- The elements still to be handed out, the next one first. -/
  waiting : List α := []
  deriving Repr, DecidableEq

namespace Queue

variable {α : Type}

/-- All elements that the queue has ever held, in the order in which they came. -/
def discovered (q : Queue α) : List α :=
  q.taken.reverse ++ q.waiting

/-- The next element, and the queue after handing it out. -/
def pop? (q : Queue α) : Option (α × Queue α) :=
  match q.waiting with
  | [] => none
  | x :: rest => some (x, { taken := x :: q.taken, waiting := rest })

/-- Handing out an element forgets nothing. -/
theorem discovered_pop? {q rest : Queue α} {x : α} (h : q.pop? = some (x, rest)) :
    rest.discovered = q.discovered := by
  unfold pop? at h
  split at h
  · cases h
  · next hw =>
    cases h
    simp [discovered, hw]

variable [DecidableEq α]

/-- Has the queue ever held `x`? -/
def knows (q : Queue α) (x : α) : Bool :=
  x ∈ q.taken || x ∈ q.waiting

/-- Put `x` at the end, unless the queue knows it. -/
def push (q : Queue α) (x : α) : Queue α :=
  if q.knows x then q else { q with waiting := q.waiting ++ [x] }

/-- Put several elements at the end, one after the other. -/
def pushAll (q : Queue α) (xs : List α) : Queue α :=
  xs.foldl push q

/-- The queue that holds the distinct elements of a list. -/
def ofList (roots : List α) : Queue α :=
  pushAll {} roots

/-- Hand out elements and put in their neighbours, at most `fuel` times; the result lists all
elements handed out. Every element is handed out once, so the list is complete as soon as `fuel` is
at least the number of elements that can be found. -/
def explore (neighbours : α → List α) : Nat → Queue α → List α
  | 0, q => q.taken.reverse
  | fuel + 1, q =>
    match q.pop? with
    | none => q.taken.reverse
    | some (x, rest) => explore neighbours fuel (rest.pushAll (neighbours x))

variable {q : Queue α} {x : α}

theorem knows_iff : q.knows x = true ↔ x ∈ q.discovered := by
  simp [knows, discovered]

theorem discovered_push :
    (q.push x).discovered = if x ∈ q.discovered then q.discovered else q.discovered ++ [x] := by
  unfold push
  by_cases h : q.knows x
  · rw [if_pos h, if_pos (knows_iff.mp h)]
  · rw [if_neg h, if_neg (mt knows_iff.mpr h)]
    simp [discovered]

end Queue

end RegularSets
