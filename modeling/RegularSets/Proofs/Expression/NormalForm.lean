import RegularSets.Proofs.Expression.Reading

/-!
# The normal form of an expression

Exactly the texts without a fault have a normal form, which is an expression with all dots of the same
structure (`Regex.normalize_spec`). Writing the dots changes no other symbol (`filter_withDots`). A text
with all dots has one structure only, because a tree is read from it (`Derives.unique`), and the dots that
it has are the ones that would be written (`withDots_eq_self`). So a normal form stands for the words of
the text that it was made of, and its own normal form is itself.
-/

namespace RegularSets

variable {text : List Char} {category : Category} {e f : Expression}

/-! ## Texts with all dots -/

/-- With all dots a text has one structure. -/
theorem Derives.unique (h : Derives false .expression text e)
    (h' : Derives false .expression text f) : e = f := by
  obtain ⟨d, hread, hd⟩ := Draft.read_of_derives h
  obtain ⟨d', hread', hd'⟩ := Draft.read_of_derives h'
  cases hread.symm.trans hread'
  exact Option.some.inj (hd.symm.trans hd')

/-- Dots may be written where operands may stand side by side. -/
theorem Derives.sideBySide (h : Derives false category text e) : Derives true category text e := by
  induction h with
  | terminal visible => exact .terminal visible
  | emptyWord => exact .emptyWord
  | group _ ih => exact .group ih
  | plain _ ih => exact .plain ih
  | modified m _ ih => exact .modified m ih
  | single _ ih => exact .single ih
  | dotted _ _ ihl ihr => exact .dotted ihl ihr
  | adjacent allowed => cases allowed
  | one _ ih => exact .one ih
  | barred _ _ ihl ihr => exact .barred ihl ihr

namespace Regex

variable {start : Bool} {c : Char} {r : Regex}

/-! ## Writing the dots -/

/-- Where all dots are written, none is added or dropped. -/
theorem withDots_eq_self (h : Derives false .expression text e) : withDots true text = text := by
  obtain ⟨d, hread, -⟩ := Draft.read_of_derives h
  obtain ⟨-, stage, hhole, hcontinues⟩ := Draft.follows_of_readOn hread
  cases hhole
  exact hcontinues.explicit true

/-- All other symbols stay, in their order. -/
theorem filter_withDots (start : Bool) (text : List Char) :
    (withDots start text).filter (· ≠ Connective.concatenation.sign) =
      text.filter (· ≠ Connective.concatenation.sign) := by
  induction text generalizing start with
  | nil => rfl
  | cons c rest ih =>
    rw [withDots]
    split
    · next hc => rw [ih, List.filter_cons_of_neg (by simp [hc])]
    · next hc =>
      have hothers : (c :: withDots (c = openSign || c = barSign) rest).filter
          (· ≠ Connective.concatenation.sign) =
            (c :: rest).filter (· ≠ Connective.concatenation.sign) := by
        simpa [List.filter_cons, hc] using ih _
      split
      · exact hothers
      · rw [List.filter_cons_of_neg (by simp), hothers]

theorem not_isBlank_of_mem_withDots (hc : c ∈ withDots true r.chars) : isBlank c = false := by
  by_cases hdot : c = Connective.concatenation.sign
  · rw [hdot]
    decide
  · have hmem : c ∈ (withDots true r.chars).filter (· ≠ Connective.concatenation.sign) :=
      List.mem_filter.mpr ⟨hc, decide_eq_true hdot⟩
    rw [filter_withDots] at hmem
    exact r.visible c (List.mem_filter.mp hmem).1

/-- A text without a fault has a structure exactly if its normal form has it. -/
theorem derives_withDots_iff (hvalid : r.validate = .ok ()) :
    Derives false .expression (withDots true r.chars) e ↔ Derives true .expression r.chars e := by
  refine ⟨fun h => ?_, derives_withDots⟩
  obtain ⟨f, hf⟩ := exists_derives_of_validate hvalid
  rwa [h.unique (derives_withDots hf)]

/-! ## Normal forms -/

theorem normalize_eq_ok_iff {n : List Char} :
    r.normalize = .ok n ↔ r.validate = .ok () ∧ withDots true r.chars = n := by
  rw [normalize]
  constructor
  · intro h
    obtain ⟨⟨⟩, hvalid, heq⟩ := exists_of_bind_eq_ok h
    exact ⟨hvalid, Except.ok.inj heq⟩
  · rintro ⟨hvalid, rfl⟩
    rw [hvalid]
    rfl

/-- A text with all dots is its own normal form. -/
theorem normalize_eq_self (h : Derives false .expression r.chars e) : r.normalize = .ok r.chars :=
  normalize_eq_ok_iff.mpr
    ⟨validate_iff_check.mpr (check_of_derives h.sideBySide), withDots_eq_self h⟩

/-- The words of the expression that the text is, if it is one. -/
def Denotes (text word : List Char) : Prop :=
  ∃ e, Derives true .expression text e ∧ e.Matches word

/-- **Normal form.** Exactly the texts without a fault have one. A tree is read from it, which is the
tree of the text, and it has with all dots the structures that the text has without; apart from dots
it is the text without its blanks, it denotes the same words, and it is its own normal form. -/
theorem normalize_spec (text : String) :
    ((∃ n, (ofString text).normalize = .ok n) ↔ (ofString text).validate = .ok ()) ∧
      ∀ n, (ofString text).normalize = .ok n →
        (∃ t, ExpressionTree.read n = .ok t ∧ (ofString text).toTree = .ok t) ∧
        (∀ e, Derives false .expression n e ↔ Derives true .expression (ofString text).chars e) ∧
        n.filter (· ≠ Connective.concatenation.sign) =
          (text.toList.filter fun c => !isBlank c).filter (· ≠ Connective.concatenation.sign) ∧
        (∀ word, Denotes n word ↔ Denotes (ofString text).chars word) ∧
        (ofString (String.ofList n)).normalize = .ok n := by
  refine ⟨⟨fun ⟨n, hn⟩ => (normalize_eq_ok_iff.mp hn).1, fun hvalid =>
    ⟨_, normalize_eq_ok_iff.mpr ⟨hvalid, rfl⟩⟩⟩, fun n hn => ?_⟩
  obtain ⟨hvalid, rfl⟩ := normalize_eq_ok_iff.mp hn
  obtain ⟨e, he⟩ := exists_derives_of_validate hvalid
  have hdots := derives_withDots he
  refine ⟨?_, fun e => derives_withDots_iff hvalid, filter_withDots _ _, fun word => ?_, ?_⟩
  · obtain ⟨t, ht, -⟩ := ExpressionTree.exists_read_of_derives hdots
    exact ⟨t, ht, by rw [toTree, hn]; exact ht⟩
  · refine exists_congr fun f => and_congr_left fun _ => ?_
    rw [← derives_withDots_iff hvalid]
    refine ⟨fun h => ?_, Derives.sideBySide⟩
    have hself := derives_withDots h
    rwa [withDots_eq_self hdots] at hself
  · have hchars : (ofString (String.ofList (withDots true (ofString text).chars))).chars =
        withDots true (ofString text).chars := by
      rw [ofString, String.toList_ofList, ofChars]
      exact List.filter_eq_self.mpr fun c hc => by rw [not_isBlank_of_mem_withDots hc]; rfl
    have hnormal := normalize_eq_self (r := ofString (String.ofList _)) (hchars.symm ▸ hdots)
    rwa [hchars] at hnormal

/-- Some concatenations have their dots, others not, next to groups, modifiers and a bar. -/
theorem normalize_spec_someDots :
    (ofString "(a | &.b*)+ c.d?e").normalize = .ok "(a|&.b*)+.c.d?.e".toList ∧
      (∃ t, ExpressionTree.read "(a|&.b*)+.c.d?.e".toList = .ok t ∧
        (ofString "(a | &.b*)+ c.d?e").toTree = .ok t) ∧
      (∀ e, Derives false .expression "(a|&.b*)+.c.d?.e".toList e ↔
        Derives true .expression (ofString "(a | &.b*)+ c.d?e").chars e) ∧
      "(a|&.b*)+.c.d?.e".toList.filter (· ≠ Connective.concatenation.sign) =
        ("(a | &.b*)+ c.d?e".toList.filter fun c => !isBlank c).filter
          (· ≠ Connective.concatenation.sign) ∧
      (∀ word, Denotes "(a|&.b*)+.c.d?.e".toList word ↔
        Denotes (ofString "(a | &.b*)+ c.d?e").chars word) ∧
      (ofString (String.ofList "(a|&.b*)+.c.d?.e".toList)).normalize =
        .ok "(a|&.b*)+.c.d?.e".toList := by
  have hnormal : (ofString "(a | &.b*)+ c.d?e").normalize = .ok "(a|&.b*)+.c.d?.e".toList := by
    decide
  exact ⟨hnormal, (normalize_spec "(a | &.b*)+ c.d?e").2 _ hnormal⟩

end Regex

end RegularSets
