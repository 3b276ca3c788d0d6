import RegularSets.Text

/-!
# Symbols

The characters of regular expressions and grammars. A few are reserved: `&` is the empty word,
parentheses group, and five characters are operators. A terminal is any other visible character but
an ASCII capital, because capitals begin the names of non-terminals.

An operator joins two operands (`Connective`) or follows one (`Modifier`). Besides its precedence it
carries two programs of elementary moves, which say where a walk of an expression tree goes when it
enters the operator (`down`) and when it comes back from the left operand (`up`).
-/

namespace RegularSets

/-- The sign of the empty word. -/
def emptyWordSign : Char := '&'

def openSign : Char := '('

def closeSign : Char := ')'

/-- The bar stands between the alternatives of expressions and of grammar rules. -/
def barSign : Char := '|'

/-- One apostrophe follows a name for each full round of the alphabet. -/
def roundMark : Char := '\''

/-- The mark that sets a name apart from one that is taken. -/
def alternateMark : Char := '_'

/-- What closing a group adds to the priority of each operator in it. -/
def groupBoost : Nat := 10

/-- The name of the state that completes an automaton. -/
def sinkName : String := "φ"

/-! ## Operators -/

/-- An operator between two operands. -/
inductive Connective
  | concatenation
  | alternation
  deriving Repr, DecidableEq

/-- An operator after one operand. -/
inductive Modifier
  | star
  | plus
  | optional
  deriving Repr, DecidableEq

inductive Operator
  | connective (k : Connective)
  | modifier (m : Modifier)
  deriving Repr, DecidableEq

/-- An elementary move from an operator of an expression tree. -/
inductive Move
  /-- Enter the left or only operand. -/
  | left
  /-- Enter the right operand. -/
  | right
  /-- Go where the walk continues after the operator's subtree. -/
  | next
  deriving Repr, DecidableEq

/-- The direction in which a walk comes to a node. -/
inductive Direction
  | down
  | up
  deriving Repr, DecidableEq

namespace Connective

def sign : Connective → Char
  | concatenation => '.'
  | alternation => barSign

/-- Concatenation binds tighter than alternation. -/
def precedence : Connective → Nat
  | concatenation => 2
  | alternation => 1

end Connective

namespace Modifier

def sign : Modifier → Char
  | star => '*'
  | plus => '+'
  | optional => '?'

/-- Modifiers bind tightest. -/
def precedence (_ : Modifier) : Nat := 3

end Modifier

namespace Operator

def concatenation : Operator := connective .concatenation

def alternation : Operator := connective .alternation

def all : List Operator :=
  [concatenation, alternation, modifier .star, modifier .plus, modifier .optional]

def sign : Operator → Char
  | connective k => k.sign
  | modifier m => m.sign

/-- The operator that a character stands for. -/
def ofSign? (c : Char) : Option Operator :=
  all.find? (·.sign = c)

/-- The number of operands. -/
def arity : Operator → Nat
  | connective _ => 2
  | modifier _ => 1

/-- A larger value binds tighter. -/
def precedence : Operator → Nat
  | connective k => k.precedence
  | modifier m => m.precedence

def isModifier (op : Operator) : Bool :=
  op.arity = 1

/-- Entering a subtree: the first operand comes next, both sides of an alternation do, and a closure
or an option can be passed by. -/
def down : Operator → List Move
  | connective .concatenation => [.left]
  | connective .alternation => [.left, .right]
  | modifier .star => [.left, .next]
  | modifier .plus => [.left]
  | modifier .optional => [.left, .next]

/-- Coming back from the left operand: a concatenation goes on to the right, a closure may start
again, and everything else is done. -/
def up : Operator → List Move
  | connective .concatenation => [.right]
  | connective .alternation => [.next]
  | modifier .star => [.left, .next]
  | modifier .plus => [.left, .next]
  | modifier .optional => [.next]

/-- The program for a direction. -/
def moves (op : Operator) : Direction → List Move
  | .down => op.down
  | .up => op.up

theorem ofSign?_sign (op : Operator) : ofSign? op.sign = some op := by
  rcases op with k | m
  · cases k <;> decide
  · cases m <;> decide

theorem sign_of_ofSign? {c : Char} {op : Operator} (h : ofSign? c = some op) : op.sign = c := by
  simpa using List.find?_some h

end Operator

/-! ## Classes of characters -/

def isOperator (c : Char) : Bool :=
  (Operator.ofSign? c).isSome

def isParenthesis (c : Char) : Bool :=
  c = openSign || c = closeSign

/-- A terminal is visible, no ASCII capital and not reserved. -/
def isTerminal (c : Char) : Bool :=
  !isBlank c && !isControl c && !c.isUpper && !(c = emptyWordSign) && !isOperator c
    && !isParenthesis c

def isTerminalOrEmptyWord (c : Char) : Bool :=
  c = emptyWordSign || isTerminal c

/-- A non-terminal is an ASCII capital followed by ASCII digits and apostrophes. -/
def isNonTerminal : List Char → Bool
  | [] => false
  | c :: rest => c.isUpper && rest.all fun d => d.isDigit || d = roundMark

/-! ## Symbols of an expression without parentheses -/

/-- What an operand at a leaf stands for. -/
inductive Atom
  | terminal (c : Char)
  | emptyWord
  deriving Repr, DecidableEq

inductive Symbol
  | atom (a : Atom)
  | operator (op : Operator)
  deriving Repr, DecidableEq

/-- The character of an atom. -/
def Atom.sign : Atom → Char
  | terminal c => c
  | emptyWord => emptyWordSign

/-- The character of a symbol. -/
def Symbol.sign : Symbol → Char
  | atom a => a.sign
  | operator op => op.sign

/-- The symbol that a character stands for, unless it is a parenthesis or has no place in an
expression. -/
def Symbol.ofSign? (c : Char) : Option Symbol :=
  match Operator.ofSign? c with
  | some op => some (operator op)
  | none =>
    if c = emptyWordSign then some (atom .emptyWord)
    else if isTerminal c then some (atom (.terminal c))
    else none

theorem Symbol.sign_of_ofSign? {c : Char} {s : Symbol} (h : Symbol.ofSign? c = some s) :
    s.sign = c := by
  unfold Symbol.ofSign? at h
  split at h
  · next op hop =>
    cases h
    exact Operator.sign_of_ofSign? hop
  · split at h
    · next hc => cases h; exact hc.symm
    · split at h
      · cases h; rfl
      · cases h

end RegularSets
