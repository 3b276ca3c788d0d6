import RegularSets.Grammar.Basic

/-!
# Writing grammars

A rule is written on a line of its own: its head, an arrow, and its alternatives with bars between
them. The terminal and the non-terminal of an alternative have a blank between them.
-/

namespace RegularSets

/-- The arrow between the head and the alternatives of a rule. -/
def arrow : List Char := ['-', '>']

def Alternative.chars : Alternative → List Char
  | emptyWord => [emptyWordSign]
  | terminal c => [c]
  | step c name => c :: ' ' :: name.toList

namespace Rule

def chars (r : Rule) : List Char :=
  r.head.toList ++ ' ' :: arrow
    ++ [' ', barSign].intercalate (r.alternatives.map fun alt => ' ' :: alt.chars)

def render (r : Rule) : String :=
  String.ofList r.chars

end Rule

namespace Grammar

/-- Every rule on a line, a line feed after each. -/
def chars (g : Grammar) : List Char :=
  g.rules.flatMap fun r => r.chars ++ ['\n']

def render (g : Grammar) : String :=
  String.ofList g.chars

end Grammar

end RegularSets
