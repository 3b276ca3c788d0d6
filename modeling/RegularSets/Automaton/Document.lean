import RegularSets.Automaton.Basic
import RegularSets.Text

/-!
# The stored and the readable form of an automaton

An automaton is stored as a document: a record of its five parts, in which every row is a record of
lists. Reading takes the parts as they are, so a stored automaton need not be well-formed. Instead of
a record, a list of the five parts in their order is understood too.

The readable form has the states and the roles, a line each, then a line for each symbol of each row.
-/

namespace RegularSets

/-- A value made of texts, lists and records. -/
inductive Document
  | null
  | text (s : String)
  | list (items : List Document)
  | record (fields : List (String × Document))
  /-- Any value of another kind, which no automaton has. -/
  | other
  deriving Inhabited

namespace Document

def text? : Document → Option String
  | text s => some s
  | _ => none

def list? : Document → Option (List Document)
  | list items => some items
  | _ => none

def record? : Document → Option (List (String × Document))
  | record fields => some fields
  | _ => none

/-- A list of texts. -/
def texts? (d : Document) : Option (List String) := do
  (← d.list?).mapM text?

/-- A text that may be absent. -/
def textOrNull? : Document → Option (Option String)
  | null => some none
  | text s => some (some s)
  | _ => none

/-- A record whose keys are single characters and whose values are lists of states. -/
def row? (d : Document) : Option Row := do
  let entries ← (← d.record?).mapM fun (key, value) => do
    match key.toList with
    | [c] => some (c, ← value.texts?)
    | _ => none
  some (Std.ExtTreeMap.ofList entries)

/-- A record of rows. -/
def rows? (d : Document) : Option (Std.ExtTreeMap State Row) := do
  let entries ← (← d.record?).mapM fun (key, value) => do
    some (key, ← value.row?)
  some (Std.ExtTreeMap.ofList entries)

def ofTexts (texts : List String) : Document :=
  list (texts.map text)

def ofOption : Option String → Document
  | none => null
  | some s => text s

def ofRow (row : Row) : Document :=
  record (row.toList.map fun (c, ts) => (String.singleton c, ofTexts ts))

end Document

namespace Automaton

/-- Put an automaton together from its five parts. -/
def ofParts? (states rows initial accepting current : Document) : Option Automaton := do
  some
    { states := ← states.texts?
      rows := ← rows.rows?
      initial := ← initial.textOrNull?
      accepting := ← accepting.texts?
      current := ← current.textOrNull? }

/-- The automaton that a document stores. In a record the initial and the current state may be
missing, and other fields do not matter. -/
def ofDocument? : Document → Option Automaton
  | .record fields => do
    let states ← fields.lookup "states"
    let rows ← fields.lookup "transitions"
    let accepting ← fields.lookup "accepting_states"
    ofParts? states rows ((fields.lookup "initial_state").getD .null) accepting
      ((fields.lookup "current_state").getD .null)
  | .list [states, rows, initial, accepting, current] =>
    ofParts? states rows initial accepting current
  | _ => none

/-- The document that stores an automaton. -/
def toDocument (a : Automaton) : Document :=
  .record
    [("states", .ofTexts a.states),
     ("transitions", .record (a.rows.toList.map fun (s, row) => (s, .ofRow row))),
     ("initial_state", .ofOption a.initial),
     ("accepting_states", .ofTexts a.accepting),
     ("current_state", .ofOption a.current)]

/-! ## The readable form -/

/-- `s` after the word for anything but one. -/
def pluralMark (n : Nat) : String :=
  if n = 1 then "" else "s"

/-- One target stands alone, any other number of them between braces. -/
def renderTargets : List State → String
  | [t] => t
  | ts => "\x7b" ++ ", ".intercalate ts ++ "\x7d"

def renderEntry (s : State) (entry : Char × List State) : String :=
  "  δ(" ++ s ++ ", " ++ String.singleton entry.1 ++ ") = " ++ renderTargets entry.2

def render (a : Automaton) : String :=
  let entries := a.states.flatMap fun s => (a.row s).toList.map (renderEntry s)
  Text.lines
    ([toString a.numStates ++ " state" ++ pluralMark a.numStates ++ ": "
        ++ " ".intercalate a.states,
      "initial state: " ++ a.initial.getD "none",
      "accepting state" ++ pluralMark a.accepting.length ++ ": " ++ " ".intercalate a.accepting,
      "current state: " ++ a.current.getD "none",
      "transitions:"] ++ entries)

end Automaton

end RegularSets
