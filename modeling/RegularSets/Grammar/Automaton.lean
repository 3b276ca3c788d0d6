import RegularSets.Automaton.Change
import RegularSets.Fault
import RegularSets.Grammar.Basic

/-!
# Grammars and automata

The automaton of a grammar has a state for each non-terminal, and one more for each rule with an
alternative that is a single terminal: all such alternatives of the rule lead to it. The grammar of
an automaton has a rule for each useful state, with a step for each transition, and the empty word
for each accepting state.
-/

namespace RegularSets

namespace Rule

/-- The changes that some alternatives of `head` make. Single terminals lead to `final`, which is
added at the first one; `made` says that this has happened. -/
def alternativeChanges (head final : State) (made : Bool) : List Alternative → List Change
  | [] => []
  | .emptyWord :: rest => .accept head :: alternativeChanges head final made rest
  | .step c name :: rest =>
    .addTransition head c name :: alternativeChanges head final made rest
  | .terminal c :: rest =>
    (if made then [] else [.addState final, .accept final])
      ++ .addTransition head c final :: alternativeChanges head final true rest

/-- Has the rule an alternative that is a single terminal? -/
def hasFinal (r : Rule) : Bool :=
  r.alternatives.any fun
    | .terminal _ => true
    | _ => false

/-- The head followed by apostrophes until it is none of the names in use. -/
def finalName (used : List State) (r : Rule) : State :=
  freshName used.contains roundMark used.length (r.head.push roundMark)

/-- The changes that some rules make, given the names in use. -/
def changes (used : List State) : List Rule → List Change
  | [] => []
  | r :: rest =>
    let final := r.finalName used
    alternativeChanges r.head final false r.alternatives
      ++ changes (if r.hasFinal then final :: used else used) rest

end Rule

namespace Grammar

variable (g : Grammar)

/-- The changes that make the automaton of a grammar out of nothing. -/
def changes : List Change :=
  (g.initial :: g.nonTerminals).map Change.addState
    ++ Rule.changes (g.initial :: g.nonTerminals) g.rules

/-- The automaton of a grammar. -/
def toAutomaton : Automaton :=
  Automaton.empty.changeAll g.changes

end Grammar

namespace Automaton

variable (a : Automaton)

/-- A step for each transition out of a state, and the empty word if the state accepts. -/
def alternativesOf (s : State) : List Alternative :=
  (a.successors s).map (fun (c, t) => .step c t) ++ if a.isAccepting s then [.emptyWord] else []

/-- Without useless states, and canonically named unless every name is a legal non-terminal. -/
def prepared : Automaton :=
  let pruned := a.removeUseless
  if pruned.states.all fun s => isNonTerminal s.toList then pruned else pruned.rename .canonical

/-- The grammar of an automaton, with the initial state first. -/
def toGrammar : Except Fault Grammar :=
  let p := a.prepared
  match p.initial with
  | none => .error .emptyLanguage
  | some initial =>
    if p.accepting.isEmpty then .error .emptyLanguage
    else
      let heads := initial :: p.states.filter (· ≠ initial)
      .ok { rules := heads.map fun s => { head := s, alternatives := p.alternativesOf s }, initial }

end Automaton

end RegularSets
