import RegularSets.Expression.Tree

/-!
# Regular expressions as text

A regular expression is a text without blanks. `validate` checks it in one pass from left to right
and reports the first fault; `normalize` writes every concatenation with a dot, which is the form
that expression trees are read from.
-/

namespace RegularSets

/-- A text without blanks, not yet checked. -/
structure Regex where
  chars : List Char
  visible : ∀ c ∈ chars, isBlank c = false

namespace Regex

/-- Drop the blanks of a text. -/
def ofChars (text : List Char) : Regex :=
  { chars := text.filter fun c => !isBlank c
    visible := by simp }

def ofString (text : String) : Regex :=
  ofChars text.toList

def text (r : Regex) : String :=
  String.ofList r.chars

/-! ## Checking -/

/-- What the last symbol allows. -/
inductive Stage
  /-- At the start, after `(` and after a binary operator: an operand has to come. -/
  | expecting
  /-- After a terminal, `&` or `)`. -/
  | operand
  /-- After a modifier. -/
  | modified
  deriving Repr, DecidableEq

/-- Check a text with `depth` groups open. -/
def check (depth : Nat) (stage : Stage) : List Char → Except RegexFault Unit
  | [] =>
    if 0 < depth then .error .unbalancedParentheses
    else if stage = .expecting then .error .missingRightOperand
    else .ok ()
  | c :: rest =>
    if isTerminalOrEmptyWord c then check depth .operand rest
    else if c = openSign then check (depth + 1) .expecting rest
    else if c = closeSign then
      if depth = 0 then .error .unbalancedParentheses
      else if stage = .expecting then .error .missingOperandBeforeClose
      else check (depth - 1) .operand rest
    else
      match Operator.ofSign? c with
      | none => .error .invalidCharacter
      | some (.modifier _) =>
        match stage with
        | .expecting => .error .modifierWithoutOperand
        | .modified => .error .consecutiveModifiers
        | .operand => check depth .modified rest
      | some (.connective _) =>
        if stage = .expecting then .error .missingLeftOperand
        else check depth .expecting rest

/-- A fault of this expression. -/
def fault (r : Regex) (cause : RegexFault) : Fault :=
  .invalidRegex r.text cause

/-- Check the expression and report its first fault. -/
def validate (r : Regex) : Except Fault Unit :=
  if r.chars.isEmpty then .error (r.fault .emptyExpression)
  else (check 0 .expecting r.chars).mapError r.fault

def isValid (r : Regex) : Bool :=
  r.validate.isOk

/-- The expression that a text is, if it is one. -/
def read (text : String) : Except Fault Regex := do
  let r := ofString text
  r.validate
  .ok r

/-! ## Writing every concatenation -/

/-- Drop the dots and put one before every character that begins an operand; `start` says that
nothing stands before it in its group or alternative. -/
def withDots (start : Bool) : List Char → List Char
  | [] => []
  | c :: rest =>
    if c = Connective.concatenation.sign then withDots start rest
    else
      let others := c :: withDots (c = openSign || c = barSign) rest
      if start || c = closeSign || isOperator c then others
      else Connective.concatenation.sign :: others

/-- Check the expression and write every concatenation with a dot. -/
def normalize (r : Regex) : Except Fault (List Char) := do
  r.validate
  .ok (withDots true r.chars)

/-- The tree of the expression. -/
def toTree (r : Regex) : Except Fault ExpressionTree := do
  ExpressionTree.read (← r.normalize)

end Regex

end RegularSets
