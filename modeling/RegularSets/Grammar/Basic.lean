import RegularSets.Distinct
import RegularSets.Symbol

/-!
# Right-linear grammars

A grammar has a rule for each of its non-terminals and begins with one of them. An alternative of a
rule is the empty word, a single terminal, or a terminal followed by a non-terminal. `Generates` says
which words a non-terminal stands for.
-/

namespace RegularSets

/-- The right-hand side of a rule. -/
inductive Alternative
  | emptyWord
  | terminal (c : Char)
  /-- A terminal followed by a non-terminal. -/
  | step (c : Char) (name : String)
  deriving Repr, DecidableEq

namespace Alternative

/-- The terminal of an alternative. -/
def terminal? : Alternative → Option Char
  | emptyWord => none
  | terminal c => some c
  | step c _ => some c

/-- The non-terminal of an alternative. -/
def nonTerminal? : Alternative → Option String
  | step _ name => some name
  | _ => none

end Alternative

/-- The alternatives of one non-terminal. -/
structure Rule where
  head : String
  alternatives : List Alternative
  deriving Repr, DecidableEq

structure Grammar where
  rules : List Rule
  initial : String
  deriving Repr, DecidableEq

namespace Grammar

variable (g : Grammar)

/-- The non-terminals that have a rule, in order. -/
def nonTerminals : List String :=
  g.rules.map Rule.head

/-- All alternatives in order. -/
def alternatives : List Alternative :=
  g.rules.flatMap Rule.alternatives

/-- The terminals in increasing order. -/
def terminals : List Char :=
  ascending (g.alternatives.filterMap Alternative.terminal?)

/-- The rule of a non-terminal. -/
def rule? (name : String) : Option Rule :=
  g.rules.find? fun r => r.head = name

/-- The non-terminals that are used without having a rule, in increasing order. -/
def undefined : List String :=
  ascending ((g.alternatives.filterMap Alternative.nonTerminal?).filter fun name =>
    !(g.nonTerminals.contains name))

/-- `alt` is an alternative of a rule for `name`. -/
def Has (name : String) (alt : Alternative) : Prop :=
  ∃ r ∈ g.rules, r.head = name ∧ alt ∈ r.alternatives

/-- The word can be derived from the non-terminal. -/
inductive Generates (g : Grammar) : String → List Char → Prop
  | emptyWord {n : String} (rule : g.Has n .emptyWord) : Generates g n []
  | terminal {n : String} {c : Char} (rule : g.Has n (.terminal c)) : Generates g n [c]
  | step {n m : String} {c : Char} {word : List Char} (rule : g.Has n (.step c m))
      (rest : Generates g m word) : Generates g n (c :: word)

end Grammar

end RegularSets
