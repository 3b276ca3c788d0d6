import RegularSets.Automaton.Edit
import RegularSets.Automaton.Reach

/-!
# Determinization

A copy of the automaton, the *base*, is made deterministic in place. Its states are visited in order;
wherever a symbol leads to several targets, these are merged into one state that has the transitions
of all of them, and the merged state is added at the end of the list, to be visited in its turn. A
merged state stands for a *group*, a set of places of base states. The same group is never merged
twice, so there are fewer merged states than sets of places. In the end useless states are dropped
and the rest is renamed.
-/

namespace RegularSets

/-- The making of one merged state. -/
structure Merge where
  /-- The targets that called for it. -/
  targets : List State
  /-- The places of the base states it stands for, in increasing order. -/
  group : List Nat
  name : State
  deriving Repr, DecidableEq

/-- An automaton on its way to a deterministic one, with the merges so far in order. -/
structure Merging where
  result : Automaton
  merges : List Merge

namespace Merging

variable (base : Automaton) (m : Merging)

/-- The base states, by their places, that a state stands for. -/
def members (t : State) : List Nat :=
  match m.merges.find? (·.name = t) with
  | some merge => merge.group
  | none => (base.placeOf? t).toList

/-- The group of a list of targets. -/
def groupOf (targets : List State) : List Nat :=
  ascending (targets.flatMap fun t => m.members base t)

/-- The transitions of all states of a group. -/
def mergedRow (group : List Nat) : Row :=
  let pairs := group.flatMap fun k => base.successors (base.stateAt k)
  pairs.foldl (fun row (c, t) => Row.add row c t) ∅

/-- The names of the states of a group, one after the other, with marks until the name is free. -/
def mergedName (group : List Nat) : State :=
  freshName m.result.hasState alternateMark m.result.numStates
    (String.join (group.map base.stateAt))

/-- Add the state that stands for a group. -/
def merge (targets : List State) (group : List Nat) : Merging :=
  let name := m.mergedName base group
  let accepts := group.any fun k => base.isAccepting (base.stateAt k)
  { result :=
      { m.result with
        states := m.result.states ++ [name]
        rows := m.result.rows.insert name (mergedRow base group)
        accepting := if accepts then m.result.accepting ++ [name] else m.result.accepting }
    merges := m.merges ++ [{ targets, group, name }] }

/-- Let a symbol lead from `s` to `t` alone. -/
def direct (s : State) (c : Char) (t : State) : Merging :=
  { m with
    result := { m.result with rows := m.result.rows.modify s fun row => row.insert c [t] } }

/-- Replace the targets of `s` on a symbol by the one state that stands for all of them. -/
def settle (s : State) (m : Merging) (entry : Char × List State) : Merging :=
  let (c, targets) := entry
  let group := m.groupOf base targets
  match m.merges.find? (·.group = group) with
  | some merge => m.direct s c merge.name
  | none =>
    match group with
    | [] => m
    | [k] => m.direct s c (base.stateAt k)
    | _ => (m.merge base targets group).direct s c (m.mergedName base group)

/-- Settle every symbol on which a state has several targets. -/
def visit (s : State) : Merging :=
  let entries := (m.result.row s).toList.filter fun (_, ts) => 1 < ts.length
  entries.foldl (settle base s) m

/-- Visit the states from place `i` on, at most `fuel` of them. -/
def visitFrom : Nat → Nat → Merging → Merging
  | 0, _, m => m
  | fuel + 1, i, m =>
    match m.result.states[i]? with
    | none => m
    | some s => visitFrom fuel (i + 1) (m.visit base s)

end Merging

namespace Automaton

variable (a : Automaton)

/-- Merge targets until no symbol has more than one. Besides the states themselves there is one
state to visit for each group at most. -/
def merging : Merging :=
  Merging.visitFrom a (a.numStates + Nat.pow 2 a.numStates) 0 { result := a, merges := [] }

/-- A deterministic automaton for the same words, without useless states, canonically named. -/
def determinize : Automaton :=
  a.merging.result.removeUseless.rename .canonical

end Automaton

end RegularSets
