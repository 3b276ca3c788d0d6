import RegularSets.Fault
import RegularSets.Grammar.Printer
import RegularSets.Text

/-!
# Reading grammars

A grammar is read line by line; lines of blanks do not count. All lines with the same head make one
rule, whose alternatives are kept once each in the order in which they come, and the first rule
belongs to the initial symbol. The first line that is no rule is reported, then a grammar without
rules, and last the non-terminals that are used without a rule.
-/

namespace RegularSets

namespace Alternative

/-- The alternative that a piece of a line stands for. -/
def read? (piece : List Char) : Option Alternative :=
  match Text.words piece with
  | [[c]] =>
    if c = emptyWordSign then some .emptyWord
    else if isTerminal c then some (.terminal c)
    else none
  | [[c], name] =>
    if isTerminal c && isNonTerminal name then some (.step c (String.ofList name)) else none
  | _ => none

end Alternative

namespace Rule

/-- The rule on a line: a non-terminal, the arrow, and alternatives between bars. -/
def read? (line : List Char) : Option Rule :=
  match Text.words line with
  | head :: sign :: first :: rest =>
    if sign = arrow && isNonTerminal head then do
      let body := [' '].intercalate (first :: rest)
      let alternatives ← (body.splitOn barSign).mapM Alternative.read?
      some { head := String.ofList head, alternatives }
    else none
  | _ => none

/-- The distinct alternatives of two lists, in the order in which they come. -/
def mergeAlternatives (old new : List Alternative) : List Alternative :=
  new.foldl appendNew old

/-- Add the alternatives of a rule to the rule with the same head, or at the end. -/
def addTo (rules : List Rule) (r : Rule) : List Rule :=
  if rules.any fun old => old.head = r.head then
    rules.map fun old =>
      if old.head = r.head then
        { old with alternatives := mergeAlternatives old.alternatives r.alternatives }
      else old
  else rules ++ [{ r with alternatives := mergeAlternatives [] r.alternatives }]

/-- Add the rules on some lines, the first of which has number `line`. -/
def readLines (line : Nat) (rules : List Rule) : List (List Char) → Except Fault (List Rule)
  | [] => .ok rules
  | text :: rest =>
    match read? text with
    | none => .error (.invalidProduction line (String.ofList text))
    | some r => readLines (line + 1) (addTo rules r) rest

end Rule

namespace Grammar

/-- The lines of a text that hold something, without blanks at the ends. -/
def contentLines (text : List Char) : List (List Char) :=
  ((text.splitOn '\n').map Text.trim).filter fun line => !line.isEmpty

/-- Read and check a grammar. -/
def readChars (text : List Char) : Except Fault Grammar := do
  match ← Rule.readLines 1 [] (contentLines text) with
  | [] => .error .missingInitialSymbol
  | first :: rest =>
    let g : Grammar := { rules := first :: rest, initial := first.head }
    if g.undefined.isEmpty then .ok g else .error (.undefinedNonTerminals g.undefined)

def read (text : String) : Except Fault Grammar :=
  readChars text.toList

end Grammar

end RegularSets
