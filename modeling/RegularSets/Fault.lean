/-!
# Faults

Why a regular expression, a grammar or a conversion is refused. A fault is a cause with what is
needed to report it; `Fault.message` is its only wording. Steps that may fail are put one after the
other; all of them succeed if there is a result (`exists_of_bind_eq_ok`).
-/

namespace RegularSets

/-- What is wrong with a regular expression. -/
inductive RegexFault
  | emptyExpression
  | invalidCharacter
  | unbalancedParentheses
  | missingOperandBeforeClose
  | missingLeftOperand
  | missingRightOperand
  | modifierWithoutOperand
  | consecutiveModifiers
  | unexpectedCharacter
  | missingOperator
  | operandAfterModifier
  | misplacedModifier
  | incompleteGroup
  | incompleteExpression
  deriving Repr, DecidableEq

/-- A reason for refusing the input of a conversion. -/
inductive Fault
  | invalidRegex (expression : String) (cause : RegexFault)
  | invalidProduction (line : Nat) (text : String)
  | missingInitialSymbol
  | undefinedNonTerminals (names : List String)
  | emptyLanguage
  deriving Repr, DecidableEq

namespace RegexFault

def message : RegexFault → String
  | emptyExpression => "empty expression"
  | invalidCharacter => "invalid character"
  | unbalancedParentheses => "unbalanced parentheses"
  | missingOperandBeforeClose => "missing operand before ')'"
  | missingLeftOperand => "missing left operand"
  | missingRightOperand => "missing right operand"
  | modifierWithoutOperand => "modifier without operand"
  | consecutiveModifiers => "consecutive modifiers"
  | unexpectedCharacter => "unexpected character"
  | missingOperator => "missing operator"
  | operandAfterModifier => "operand after a modifier"
  | misplacedModifier => "misplaced modifier"
  | incompleteGroup => "incomplete group"
  | incompleteExpression => "incomplete expression"

end RegexFault

namespace Fault

def message : Fault → String
  | invalidRegex expression cause =>
    "invalid regular expression `" ++ expression ++ "`: " ++ cause.message
  | invalidProduction line text =>
    "invalid grammar: cannot parse line " ++ toString line ++ ": `" ++ text ++ "`"
  | missingInitialSymbol => "invalid grammar: the initial symbol is undefined"
  | undefinedNonTerminals names =>
    "invalid grammar: the following symbols are undefined: " ++ ", ".intercalate names
  | emptyLanguage => "the automaton recognizes the empty language"

end Fault

theorem exists_of_bind_eq_ok {ε α β : Type} {x : Except ε α} {f : α → Except ε β} {result : β}
    (h : x >>= f = .ok result) : ∃ a, x = .ok a ∧ f a = .ok result := by
  cases x with
  | error e => cases h
  | ok a => exact ⟨a, rfl, h⟩

end RegularSets
