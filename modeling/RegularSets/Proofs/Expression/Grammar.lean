import RegularSets.Proofs.Expression.Automaton
import RegularSets.Proofs.Grammar.RoundTrip

/-!
# From an expression to a grammar and back

The automaton of a checked expression has a grammar, which can be written, read again and made into an
automaton, and that automaton accepts the same words (`Regex.acceptsWord_through_grammar`). Two
properties of expressions are needed. Every expression stands for some word
(`Expression.exists_matches`), so the automaton has a grammar. The words of an expression consist of
its terminals (`Expression.Legal.isTerminal_of_matches`), and those that can be written in an
expression can be written in a grammar.
-/

namespace RegularSets

namespace Expression

variable {e : Expression} {word : List Char}

/-- No expression stands for the empty language. -/
theorem exists_matches (e : Expression) : ∃ word, e.Matches word := by
  induction e with
  | atom x =>
    cases x with
    | terminal c => exact ⟨_, .terminal c⟩
    | emptyWord => exact ⟨_, .emptyWord⟩
  | join k left right hleft hright =>
    obtain ⟨u, hu⟩ := hleft
    obtain ⟨v, hv⟩ := hright
    cases k with
    | concatenation => exact ⟨_, .concatenation hu hv⟩
    | alternation => exact ⟨_, .alternationLeft hu⟩
  | modify m operand h =>
    obtain ⟨u, hu⟩ := h
    cases m with
    | star => exact ⟨_, .starNone⟩
    | plus => exact ⟨_, .plus hu .starNone⟩
    | optional => exact ⟨_, .optionalNone⟩

/-- The terminals of the expression are terminals. -/
def Legal : Expression → Prop
  | atom (.terminal c) => isTerminal c = true
  | atom .emptyWord => True
  | join _ left right => left.Legal ∧ right.Legal
  | modify _ operand => operand.Legal

theorem Legal.isTerminal_of_matches (h : e.Legal) (hmatches : e.Matches word) :
    ∀ c ∈ word, isTerminal c = true := by
  induction hmatches with
  | terminal c => exact List.forall_mem_singleton.mpr h
  | emptyWord => exact nofun
  | concatenation _ _ ihl ihr => exact List.forall_mem_append.mpr ⟨ihl h.1, ihr h.2⟩
  | alternationLeft _ ih => exact ih h.1
  | alternationRight _ ih => exact ih h.2
  | starNone => exact nofun
  | starMore _ _ ihfirst ihothers => exact List.forall_mem_append.mpr ⟨ihfirst h, ihothers h⟩
  | plus _ _ ihfirst ihothers => exact List.forall_mem_append.mpr ⟨ihfirst h, ihothers h⟩
  | optionalNone => exact nofun
  | optionalOne _ ih => exact ih h

end Expression

theorem Derives.legal {sideBySide : Bool} {category : Category} {text : List Char} {e : Expression}
    (h : Derives sideBySide category text e) : e.Legal := by
  induction h with
  | terminal visible => exact visible
  | emptyWord => trivial
  | group _ ih => exact ih
  | plain _ ih => exact ih
  | modified m _ ih => exact ih
  | single _ ih => exact ih
  | dotted _ _ ihl ihr => exact ⟨ihl, ihr⟩
  | adjacent _ _ _ ihl ihr => exact ⟨ihl, ihr⟩
  | one _ ih => exact ih
  | barred _ _ ihl ihr => exact ⟨ihl, ihr⟩

namespace Regex

/-- **Through the grammar.** The automaton of a checked expression has a grammar, which is read again
once it is written, and the automaton of what was read accepts the same words. -/
theorem acceptsWord_through_grammar (text : String) (hvalid : (ofString text).validate = .ok ()) :
    ∃ a g h, (ofString text).toAutomaton = .ok a ∧ a.toGrammar = .ok g ∧
      Grammar.read g.render = .ok h ∧
      ∀ word, h.toAutomaton.acceptsWord word = a.acceptsWord word := by
  obtain ⟨e, he⟩ := exists_derives_of_validate hvalid
  obtain ⟨t, ht, hnumbered, rfl⟩ := exists_tree hvalid he
  have hmatches {word : List Char} :
      t.toAutomaton.Accepts word ↔ t.root.expression.Matches word :=
    Automaton.acceptsWord_iff.symm.trans (t.acceptsWord_toAutomaton hnumbered)
  have hw := t.wellFormed_toAutomaton
  obtain ⟨word, hword⟩ := t.root.expression.exists_matches
  obtain ⟨g, hg⟩ := Automaton.exists_toGrammar hw (hmatches.mpr hword)
  have hproper : g.Proper := Automaton.proper_of_toGrammar hw
    (fun word hacc => he.legal.isTerminal_of_matches (hmatches.mp hacc)) hg
  refine ⟨t.toAutomaton, g, g, ?_, hg, hproper.reads_back, fun word => ?_⟩
  · rw [toAutomaton, ht]
    rfl
  · exact Automaton.acceptsWord_of_toGrammar hw hg

/-- A closure over alternatives, one of them the arrow's dash, and blanks between the symbols. -/
theorem acceptsWord_through_grammar_closure :
    (ofString "(- | é*)+ >?").validate = .ok () ∧
      ∃ a g h, (ofString "(- | é*)+ >?").toAutomaton = .ok a ∧ a.toGrammar = .ok g ∧
        Grammar.read g.render = .ok h ∧
        ∀ word, h.toAutomaton.acceptsWord word = a.acceptsWord word :=
  ⟨rfl, acceptsWord_through_grammar "(- | é*)+ >?" rfl⟩

end Regex

end RegularSets
