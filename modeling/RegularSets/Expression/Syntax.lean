import RegularSets.Symbol

/-!
# Expressions

The abstract syntax of regular expressions and its two classical readings. `Matches` says which words
an expression stands for. `Derives` is the grammar of written expressions: `|` binds loosest,
concatenation tighter, modifiers tightest, an operand has one modifier at most, and both binary
operators associate to the right. Concatenation is written with a dot, and in the freer form also by
putting operands side by side.
-/

namespace RegularSets

/-- A regular expression. -/
inductive Expression
  | atom (a : Atom)
  | join (k : Connective) (left right : Expression)
  | modify (m : Modifier) (operand : Expression)
  deriving Repr, DecidableEq

namespace Expression

/-- The word belongs to the language of the expression. -/
inductive Matches : Expression → List Char → Prop
  | terminal (c : Char) : Matches (atom (.terminal c)) [c]
  | emptyWord : Matches (atom .emptyWord) []
  | concatenation {e f : Expression} {u v : List Char} (left : Matches e u) (right : Matches f v) :
      Matches (join .concatenation e f) (u ++ v)
  | alternationLeft {e f : Expression} {u : List Char} (left : Matches e u) :
      Matches (join .alternation e f) u
  | alternationRight {e f : Expression} {v : List Char} (right : Matches f v) :
      Matches (join .alternation e f) v
  | starNone {e : Expression} : Matches (modify .star e) []
  | starMore {e : Expression} {u v : List Char} (first : Matches e u)
      (others : Matches (modify .star e) v) : Matches (modify .star e) (u ++ v)
  | plus {e : Expression} {u v : List Char} (first : Matches e u)
      (others : Matches (modify .star e) v) : Matches (modify .plus e) (u ++ v)
  | optionalNone {e : Expression} : Matches (modify .optional e) []
  | optionalOne {e : Expression} {u : List Char} (one : Matches e u) :
      Matches (modify .optional e) u

end Expression

/-- The syntactic categories of written expressions, from loose to tight. -/
inductive Category
  | expression
  | term
  | factor
  | base
  deriving Repr, DecidableEq

/-- The text is an expression of the category with the given syntax; `sideBySide` allows
concatenation without a dot. -/
inductive Derives (sideBySide : Bool) : Category → List Char → Expression → Prop
  | terminal {c : Char} (visible : isTerminal c = true) :
      Derives sideBySide .base [c] (.atom (.terminal c))
  | emptyWord : Derives sideBySide .base [emptyWordSign] (.atom .emptyWord)
  | group {text : List Char} {e : Expression} (inner : Derives sideBySide .expression text e) :
      Derives sideBySide .base (openSign :: text ++ [closeSign]) e
  | plain {text : List Char} {e : Expression} (base : Derives sideBySide .base text e) :
      Derives sideBySide .factor text e
  | modified {text : List Char} {e : Expression} (m : Modifier)
      (base : Derives sideBySide .base text e) :
      Derives sideBySide .factor (text ++ [m.sign]) (.modify m e)
  | single {text : List Char} {e : Expression} (factor : Derives sideBySide .factor text e) :
      Derives sideBySide .term text e
  | dotted {u v : List Char} {e f : Expression} (left : Derives sideBySide .factor u e)
      (right : Derives sideBySide .term v f) :
      Derives sideBySide .term (u ++ Connective.concatenation.sign :: v)
        (.join .concatenation e f)
  | adjacent {u v : List Char} {e f : Expression} (allowed : sideBySide = true)
      (left : Derives sideBySide .factor u e) (right : Derives sideBySide .term v f) :
      Derives sideBySide .term (u ++ v) (.join .concatenation e f)
  | one {text : List Char} {e : Expression} (term : Derives sideBySide .term text e) :
      Derives sideBySide .expression text e
  | barred {u v : List Char} {e f : Expression} (left : Derives sideBySide .term u e)
      (right : Derives sideBySide .expression v f) :
      Derives sideBySide .expression (u ++ Connective.alternation.sign :: v)
        (.join .alternation e f)

end RegularSets
