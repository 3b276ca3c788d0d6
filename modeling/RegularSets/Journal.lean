import RegularSets.Automaton.Decide
import RegularSets.Expression.Automaton
import RegularSets.Grammar.Automaton

/-!
# The journal

What an operation reports besides its result: refused edits as warnings, summaries for debugging, and
the single merges and compositions as a trace. Each operation that reports something has a function
that lists its events in order; the operations themselves know nothing of it.
-/

namespace RegularSets

/-- How much is reported: each level includes those before it. -/
inductive Level
  | warn
  | debug
  | trace
  deriving Repr, DecidableEq

inductive Event
  | refused (r : Refusal)
  | merged (targets : List State) (name : State)
  | determinized (states total : Nat)
  | minimized (states left : Nat)
  | multiplied (left right pairs : Nat)
  /-- A composition of positions of an expression, as it is shown. -/
  | composed (expression composition : String)
  deriving Repr, DecidableEq

namespace Level

def rank : Level → Nat
  | warn => 0
  | debug => 1
  | trace => 2

def name : Level → String
  | warn => "WARN"
  | debug => "DEBUG"
  | trace => "TRACE"

end Level

namespace Event

def level : Event → Level
  | refused _ => .warn
  | merged _ _ => .trace
  | determinized _ _ => .debug
  | minimized _ _ => .debug
  | multiplied _ _ _ => .debug
  | composed _ _ => .trace

def message : Event → String
  | refused r => r.message
  | merged targets name =>
    "determinize: [" ++ ", ".intercalate (targets.map fun t => "\"" ++ t ++ "\"")
      ++ "] merged into " ++ name
  | determinized states total =>
    "determinize: " ++ toString states ++ " states, " ++ toString total ++ " after merging"
  | minimized states left =>
    "minimize: " ++ toString states ++ " states reduced to " ++ toString left
  | multiplied left right pairs =>
    "product: " ++ toString left ++ " x " ++ toString right ++ " states, " ++ toString pairs
      ++ " pairs"
  | composed expression composition => expression ++ ": composition " ++ composition

/-- The level and the message. -/
def render (e : Event) : String :=
  e.level.name ++ " " ++ e.message

/-- Is the event reported at a level? -/
def shownAt (level : Level) (e : Event) : Bool :=
  e.level.rank ≤ level.rank

end Event

/-- What is reported at a level. -/
def report (level : Level) (events : List Event) : List String :=
  (events.filter (Event.shownAt level)).map Event.render

namespace Automaton

variable (a b : Automaton)

def changeEvents (changes : List Change) : List Event :=
  (a.refusals changes).map .refused

def determinizeEvents : List Event :=
  let merging := a.merging
  merging.merges.map (fun merge => .merged merge.targets merge.name)
    ++ [.determinized a.numStates merging.result.numStates]

/-- A deterministic automaton is taken as it is. -/
def deterministicEvents : List Event :=
  if a.isDeterministic then [] else a.determinizeEvents

/-- Merging equivalent states may be refused only if the automaton is not well-formed. -/
def mergeEquivalentEvents : List Event :=
  if a.states.isEmpty then []
  else
    let c := a.complete
    c.changeEvents (c.equivalences.map fun (old, new) => .replaceState old new)

def minimizeEvents : List Event :=
  let d := a.determinize
  a.determinizeEvents ++ d.mergeEquivalentEvents
    ++ [.minimized a.numStates d.mergeEquivalent.numStates]

def complementEvents : List Event :=
  a.deterministicEvents

def productEvents : List Event :=
  let alphabet := a.jointAlphabet b
  let left := a.completed alphabet
  let right := b.completed alphabet
  a.deterministicEvents ++ b.deterministicEvents
    ++ [.multiplied left.automaton.numStates right.automaton.numStates
          (Completed.pairBuilder left right).numStates]

def isEmptyEvents : List Event :=
  a.minimizeEvents

def containsEvents : List Event :=
  b.productEvents a ++ (b.difference a).isEmptyEvents

/-- The second inclusion is looked at only if the first one holds. -/
def isEquivalentToEvents : List Event :=
  a.containsEvents b ++ if a.contains b then b.containsEvents a else []

def languageSizeEvents : List Event :=
  a.minimizeEvents

end Automaton

/-- The compositions of an expression; an expression that is refused has none. -/
def Regex.automatonEvents (r : Regex) : List Event :=
  match r.toTree with
  | .error _ => []
  | .ok t => t.compositions.map fun c => .composed r.text c.render

/-- Only a step to a non-terminal without a rule is refused. -/
def Grammar.automatonEvents (g : Grammar) : List Event :=
  Automaton.empty.changeEvents g.changes

end RegularSets
