import RegularSets.Expression.Regex
import RegularSets.Expression.Syntax

/-!
# Writing every concatenation

`withDots` turns an expression of the freer syntax into one with a dot for every concatenation and
with the same structure (`derives_withDots`). A dot is put before an operand unless nothing stands
before it, so the induction says for every part of an expression what becomes of it in both cases,
whatever follows.
-/

namespace RegularSets.Regex

variable {c : Char} {rest text : List Char} {start : Bool} {category : Category} {e : Expression}

/-! ## One character -/

theorem withDots_dot :
    withDots start (Connective.concatenation.sign :: rest) = withDots start rest := by
  rw [withDots, if_pos rfl]

theorem withDots_bar :
    withDots start (Connective.alternation.sign :: rest) =
      Connective.alternation.sign :: withDots true rest := by
  rw [withDots, if_neg (by decide), if_pos (by simp [show isOperator '|' = true by decide,
    Connective.sign, barSign])]
  rfl

theorem withDots_close :
    withDots start (closeSign :: rest) = closeSign :: withDots false rest := by
  rw [withDots, if_neg (by decide), if_pos (by simp)]
  rfl

theorem withDots_modifier (m : Modifier) :
    withDots start (m.sign :: rest) = m.sign :: withDots false rest := by
  have hop : isOperator m.sign = true := by cases m <;> decide
  have hbegins : (decide (m.sign = openSign) || decide (m.sign = barSign)) = false := by
    cases m <;> decide
  have hdot : m.sign ≠ Connective.concatenation.sign := by cases m <;> decide
  rw [withDots, if_neg hdot, if_pos (by simp [hop]), hbegins]

/-- The start of an operand, with a dot before it if something stands there. -/
def lead (start : Bool) (text : List Char) : List Char :=
  if start then text else Connective.concatenation.sign :: text

theorem lead_append {text' : List Char} : lead start text ++ text' = lead start (text ++ text') := by
  cases start <;> rfl

theorem withDots_open :
    withDots start (openSign :: rest) = lead start (openSign :: withDots true rest) := by
  cases start <;> simp only [withDots, lead] <;> rfl

theorem withDots_operand (hparenthesis : isParenthesis c = false) (hop : isOperator c = false) :
    withDots start (c :: rest) = lead start (c :: withDots false rest) := by
  have hdot : c ≠ Connective.concatenation.sign := by
    intro heq
    rw [heq] at hop
    cases hop
  have hbar : c ≠ barSign := by
    intro heq
    rw [heq] at hop
    cases hop
  simp only [isParenthesis, Bool.or_eq_false_iff, decide_eq_false_iff_not] at hparenthesis
  rw [withDots, if_neg hdot]
  cases start <;> simp [lead, hparenthesis, hop, hbar]

theorem withDots_terminal (h : isTerminal c = true) :
    withDots start (c :: rest) = lead start (c :: withDots false rest) := by
  simp only [isTerminal, Bool.and_eq_true, Bool.not_eq_true'] at h
  exact withDots_operand h.2 h.1.2

/-! ## A whole expression -/

/-- A text and what becomes of it before any other text. -/
abbrev Dotted (text text' : List Char) : Prop :=
  ∀ start rest, withDots start (text ++ rest) = lead start text' ++ withDots false rest

theorem exists_dotted (h : Derives true category text e) :
    ∃ text', Derives false category text' e ∧ Dotted text text' := by
  induction h with
  | terminal visible =>
    refine ⟨_, .terminal visible, fun start rest => ?_⟩
    rw [lead_append]
    exact withDots_terminal visible
  | emptyWord =>
    refine ⟨_, .emptyWord, fun start rest => ?_⟩
    rw [lead_append]
    exact withDots_operand (by decide) (by decide)
  | group _ ih =>
    obtain ⟨text', hinner, hdots⟩ := ih
    refine ⟨_, .group hinner, fun start rest => ?_⟩
    simp only [List.cons_append, List.append_assoc, List.nil_append, withDots_open, hdots,
      withDots_close, lead_append]
    rfl
  | plain _ ih =>
    obtain ⟨text', hbase, hdots⟩ := ih
    exact ⟨text', .plain hbase, hdots⟩
  | modified m _ ih =>
    obtain ⟨text', hbase, hdots⟩ := ih
    refine ⟨_, .modified m hbase, fun start rest => ?_⟩
    simp only [List.append_assoc, List.cons_append, List.nil_append, hdots, withDots_modifier,
      lead_append]
  | single _ ih =>
    obtain ⟨text', hfactor, hdots⟩ := ih
    exact ⟨text', .single hfactor, hdots⟩
  | dotted _ _ ihl ihr =>
    obtain ⟨left, hleft, hdotsl⟩ := ihl
    obtain ⟨right, hright, hdotsr⟩ := ihr
    refine ⟨_, .dotted hleft hright, fun start rest => ?_⟩
    simp only [List.append_assoc, List.cons_append, hdotsl, withDots_dot, hdotsr, lead_append]
    rfl
  | adjacent _ _ _ ihl ihr =>
    obtain ⟨left, hleft, hdotsl⟩ := ihl
    obtain ⟨right, hright, hdotsr⟩ := ihr
    refine ⟨_, .dotted hleft hright, fun start rest => ?_⟩
    simp only [List.append_assoc, List.cons_append, hdotsl, hdotsr, lead_append]
    rfl
  | one _ ih =>
    obtain ⟨text', hterm, hdots⟩ := ih
    exact ⟨text', .one hterm, hdots⟩
  | barred _ _ ihl ihr =>
    obtain ⟨left, hleft, hdotsl⟩ := ihl
    obtain ⟨right, hright, hdotsr⟩ := ihr
    refine ⟨_, .barred hleft hright, fun start rest => ?_⟩
    simp only [List.append_assoc, List.cons_append, hdotsl, withDots_bar, hdotsr, lead_append]
    rfl

/-- With its dots written an expression has the structure that it had before. -/
theorem derives_withDots (h : Derives true category text e) :
    Derives false category (withDots true text) e := by
  obtain ⟨text', hderives, hdots⟩ := exists_dotted h
  have heq := hdots true []
  simp only [List.append_nil, withDots, lead, if_true] at heq
  rwa [heq]

end RegularSets.Regex
