import RegularSets.Proofs.Automaton.Builder
import RegularSets.Proofs.Expression.Compositions
import RegularSets.Proofs.Expression.Reading

/-!
# The automaton of an expression accepts its words

The builder is told what each composition does (`facts`), so what the facts lead along to an end is what
symbols lead along from a composition (`exists_leads_facts`). From the composition at the beginning these
are the words of the expression (`acceptsWord_toAutomaton`).

A text that passes the check is an expression, its normal form is the same expression with all dots, and
that is read into a tree of its structure, numbered without gaps (`Regex.exists_tree`).
-/

namespace RegularSets

namespace ExpressionTree

variable {t : ExpressionTree} {c c' : Composition} {symbol : Char} {word : List Char}

/-! ## What the builder is told -/

/-- What the builder is told: what each composition does. -/
def facts (t : ExpressionTree) : List (Builder.Fact Composition) :=
  t.compositions.flatMap
    (Builder.describe (·.reachesEnd) fun c => c.successors t.root t.leaves.toArray)

theorem builder_eq (t : ExpressionTree) :
    t.builder = Builder.ofFacts t.root.initialComposition t.facts := by
  rw [Builder.ofFacts, facts, Builder.tellAll_flatMap_describe]
  rfl

theorem records_builder (t : ExpressionTree) :
    Builder.Records (Builder.registered t.root.initialComposition t.facts) t.facts t.builder :=
  t.builder_eq ▸ Builder.records_ofFacts _ _

theorem final_mem_facts : .final c ∈ t.facts ↔ c ∈ t.compositions ∧ c.reachesEnd = true :=
  Builder.final_mem_flatMap_describe

theorem transition_mem_facts : .transition c symbol c' ∈ t.facts ↔
    c ∈ t.compositions ∧ (symbol, c') ∈ c.successors t.root t.leaves.toArray :=
  Builder.transition_mem_flatMap_describe

/-! ## What the automaton does -/

theorem wellFormed_toAutomaton (t : ExpressionTree) : t.toAutomaton.WellFormed :=
  t.records_builder.wellFormed_build

theorem deterministic_toAutomaton (t : ExpressionTree) : t.toAutomaton.Deterministic := by
  refine t.records_builder.deterministic_build fun {c d d' symbol} hd hd' => ?_
  rw [(Composition.mem_successors.mp (transition_mem_facts.mp hd).2).2,
    (Composition.mem_successors.mp (transition_mem_facts.mp hd').2).2]

variable (ht : t.root.Numbered 0 1)

include ht

/-- The facts lead from a composition to an end along the words that it accepts. -/
theorem exists_leads_facts (hc : c ∈ t.compositions) :
    (∃ c', Builder.Leads t.facts c word c' ∧ .final c' ∈ t.facts) ↔ c.Accepts t word := by
  induction word generalizing c with
  | nil =>
    rw [Builder.exists_leads_nil_iff, final_mem_facts, Composition.Accepts]
    exact and_iff_right hc
  | cons symbol word ih =>
    refine Builder.exists_leads_cons_iff.trans (exists_congr fun c' => ?_)
    rw [transition_mem_facts, and_iff_right hc]
    exact and_congr_right fun hsymbol => ih (mem_compositions_of_mem_successors ht hc hsymbol)

theorem accepts_initialComposition :
    t.root.initialComposition.Accepts t word ↔ t.root.expression.Matches word := by
  rw [Tree.initialComposition, Composition.accepts_walkFrom ht Visit.within_root]
  constructor
  · rintro ⟨u, ⟨x, hx, hu⟩, rfl⟩
    cases List.mem_singleton.mp hx
    obtain ⟨u, _, hu, rfl, rfl⟩ := hu
    rw [List.append_nil]
    exact Tree.matches_of_marks (labelled_root ht) hu
  · intro h
    obtain ⟨u, hu, rfl⟩ := Tree.exists_marks_of_matches (labelled_root ht) h
    exact ⟨u, ⟨_, List.mem_cons_self, u, [], hu, rfl, List.append_nil u⟩, rfl⟩

theorem acceptsWord_toAutomaton :
    t.toAutomaton.acceptsWord word = true ↔ t.root.expression.Matches word := by
  rw [toAutomaton, builder_eq, Builder.acceptsWord_build_ofFacts,
    exists_leads_facts ht (initial_mem_compositions ht), accepts_initialComposition ht]

end ExpressionTree

/-! ## From the text to the tree -/

namespace Regex

variable {r : Regex}

theorem exists_tree {e : Expression} (hvalid : r.validate = .ok ())
    (he : Derives true .expression r.chars e) :
    ∃ t, r.toTree = .ok t ∧ t.root.Numbered 0 1 ∧ t.root.expression = e := by
  obtain ⟨t, ht, hnumbered, hexpression⟩ := ExpressionTree.exists_read_of_derives (derives_withDots he)
  refine ⟨t, ?_, hnumbered, hexpression⟩
  rw [toTree, normalize, hvalid]
  exact ht

theorem wellFormed_of_toAutomaton {a : Automaton} (h : r.toAutomaton = .ok a) : a.WellFormed := by
  obtain ⟨t, -, ht⟩ := exists_of_bind_eq_ok h
  cases ht
  exact t.wellFormed_toAutomaton

/-- **Automaton of an expression.** A text that passes the check is an expression and has an automaton,
which is deterministic and accepts exactly the words of the expression, however the text derives it. -/
theorem toAutomaton_spec (text : String) (hvalid : (ofString text).validate = .ok ()) :
    ∃ a, (ofString text).toAutomaton = .ok a ∧ a.isDeterministic = true ∧
      (∃ e, Derives true .expression (ofString text).chars e) ∧
      ∀ e, Derives true .expression (ofString text).chars e →
        ∀ word, a.acceptsWord word = true ↔ e.Matches word := by
  obtain ⟨e, he⟩ := exists_derives_of_validate hvalid
  obtain ⟨t, ht, -, -⟩ := exists_tree hvalid he
  refine ⟨t.toAutomaton, ?_, ?_, ⟨e, he⟩, fun e he word => ?_⟩
  · rw [toAutomaton, ht]
    rfl
  · exact Automaton.isDeterministic_iff.mpr t.deterministic_toAutomaton
  · obtain ⟨u, hu, hnumbered, rfl⟩ := exists_tree hvalid he
    rw [ht] at hu
    cases hu
    exact ExpressionTree.acceptsWord_toAutomaton hnumbered

/-- Closures and options one in another, with operands side by side and an empty alternative. -/
theorem toAutomaton_spec_nested :
    (ofString "(a|&b*)+c?").validate = .ok () ∧
      ∃ a, (ofString "(a|&b*)+c?").toAutomaton = .ok a ∧ a.isDeterministic = true ∧
        (∃ e, Derives true .expression (ofString "(a|&b*)+c?").chars e) ∧
        ∀ e, Derives true .expression (ofString "(a|&b*)+c?").chars e →
          ∀ word, a.acceptsWord word = true ↔ e.Matches word :=
  ⟨rfl, toAutomaton_spec "(a|&b*)+c?" rfl⟩

end Regex

end RegularSets
