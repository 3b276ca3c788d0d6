import RegularSets.Proofs.Grammar.RoundTrip
import RegularSets.Proofs.Words

/-!
# What a text is read as

`Reading lines outcome` says what is made of the lines of a text that are not blank, and says it
without the reader: a rule is spelled by a line (`Rule.IsSpelled`) if the line holds its head and the
arrow, and cutting the rest of the line at every bar leaves pieces whose words are those of its
alternatives. The first line that spells no rule comes before a text without lines, and that comes
before the names without a rule. The reader gives this outcome for every text (`read_eq_iff`).

The reader does not cut the rest of the line but the words in it, written anew with single blanks
between them. This makes other pieces with the same words (`Text.wordsBetween_congr`), and only words
matter. It also adds the rules one line after the other, looking for an old rule with the same head
each time; `Rule.gathered` says at once what comes out.
-/

namespace RegularSets

namespace Alternative

variable {alternatives : List Alternative} {text other : List Char}

/-- Cutting the text at every bar leaves pieces that spell the alternatives. -/
def AreSpelled (alternatives : List Alternative) (text : List Char) : Prop :=
  List.Forall₂ (fun piece alternative => alternative.IsSpelled piece) (text.splitOn barSign)
    alternatives

theorem readsAs_iff : ReadsAs text alternatives ↔ AreSpelled alternatives text := by
  simp only [ReadsAs, AreSpelled, read?_eq_some_iff]

theorem areSpelled_iff :
    AreSpelled alternatives text ↔
      Text.wordsBetween barSign text = alternatives.map words ∧
        ∀ alternative ∈ alternatives, alternative.Legal := by
  rw [AreSpelled, Text.wordsBetween]
  generalize text.splitOn barSign = pieces
  induction pieces generalizing alternatives with
  | nil => cases alternatives <;> simp
  | cons piece pieces ih =>
    cases alternatives with
    | nil => simp
    | cons alternative alternatives =>
      rw [List.forall₂_cons, ih, IsSpelled, List.forall_mem_cons, List.map_cons, List.map_cons,
        List.cons.injEq, and_comm (a := alternative.Legal)]
      exact and_and_and_comm

/-- Only the words of the text matter. -/
theorem areSpelled_congr (h : Text.words text = Text.words other) :
    AreSpelled alternatives text ↔ AreSpelled alternatives other := by
  rw [areSpelled_iff, areSpelled_iff, Text.wordsBetween_congr rfl h]

theorem AreSpelled.words_ne_nil (h : AreSpelled alternatives text) : Text.words text ≠ [] := by
  intro hnone
  rw [areSpelled_congr (hnone.trans Text.words_nil.symm), AreSpelled, List.splitOn_nil] at h
  cases h with
  | cons hfirst _ => exact Alternative.words_ne_nil _ (hfirst.2.symm.trans Text.words_nil)

end Alternative

/-! ## Rules -/

namespace Rule

variable {r : Rule} {rules : List Rule} {line : List Char} {lines : List (List Char)}

/-- The first two words of the line are the head of the rule and the arrow, and the rest of the line
spells the alternatives of the rule. -/
def IsSpelled (r : Rule) (line : List Char) : Prop :=
  isNonTerminal r.head.toList = true ∧
    ∃ front back, line = front ++ back ∧ Text.words front = [r.head.toList, arrow] ∧
      Text.Parted back ∧ Alternative.AreSpelled r.alternatives back

theorem read?_eq_some_iff : read? line = some r ↔ r.IsSpelled line := by
  simp only [read?_eq_some_iff_words, Alternative.readsAs_iff, IsSpelled]
  refine and_congr_right fun hhead => ⟨?_, ?_⟩
  · rintro ⟨rest, -, hwords, halternatives⟩
    -- the line is cut after its second word
    obtain ⟨blanks, tail, rfl, hblanks, hhead, htail, hwords⟩ :=
      Text.exists_append_of_words_eq_cons hwords
    obtain ⟨gap, back, rfl, hgap, harrow, hback, hwords⟩ :=
      Text.exists_append_of_words_eq_cons hwords
    refine ⟨(blanks ++ r.head.toList) ++ (gap ++ arrow), back, ?_, ?_, hback, ?_⟩
    · simp only [List.append_assoc]
    · rw [Text.words_append htail.of_append, Text.words_append_of_blank hblanks,
        Text.words_append_of_blank hgap, Text.words_eq_singleton hhead.ne_nil hhead.visible,
        Text.words_eq_singleton harrow.ne_nil harrow.visible, List.singleton_append]
    · subst hwords
      exact (Alternative.areSpelled_congr (Text.words_intercalate_words back)).mp halternatives
  · rintro ⟨front, back, rfl, hfront, hback, halternatives⟩
    refine ⟨Text.words back, halternatives.words_ne_nil, ?_, ?_⟩
    · rw [Text.words_append hback, hfront]
      rfl
    · exact (Alternative.areSpelled_congr (Text.words_intercalate_words back)).mpr halternatives

theorem read?_eq_none_iff : read? line = none ↔ ∀ r : Rule, ¬ r.IsSpelled line := by
  simp only [Option.eq_none_iff_forall_not_mem, Option.mem_def, read?_eq_some_iff]

/-- The blanks around a line do not matter. -/
theorem read?_trim (line : List Char) : read? (Text.trim line) = read? line := by
  rw [read?, read?, Text.words_trim]

/-! ### Rules one after the other -/

/-- All alternatives of the rules with this head, each once, in the order in which they come. -/
def alternativesFor (rules : List Rule) (name : String) : List Alternative :=
  ((rules.filter fun r => r.head = name).flatMap alternatives).eraseDups

/-- One rule for each head, in the order in which they come. -/
def gathered (rules : List Rule) : List Rule :=
  (rules.map head).eraseDups.map fun name => { head := name, alternatives := alternativesFor rules name }

theorem alternativesFor_concat_self :
    alternativesFor (rules ++ [r]) r.head =
      mergeAlternatives (alternativesFor rules r.head) r.alternatives := by
  rw [mergeAlternatives, alternativesFor, alternativesFor, foldl_appendNew_eraseDups]
  simp

theorem alternativesFor_concat_of_ne {name : String} (h : r.head ≠ name) :
    alternativesFor (rules ++ [r]) name = alternativesFor rules name := by
  simp [alternativesFor, h]

theorem alternativesFor_of_not_mem {name : String} (h : name ∉ rules.map head) :
    alternativesFor rules name = [] := by
  have hnone : rules.filter (fun r => r.head = name) = [] := by
    rw [List.filter_eq_nil_iff]
    rintro r hr hname
    exact h (List.mem_map.mpr ⟨r, hr, of_decide_eq_true hname⟩)
  rw [alternativesFor, hnone]
  rfl

theorem mem_alternativesFor {name : String} {alternative : Alternative} :
    alternative ∈ alternativesFor rules name ↔
      ∃ r ∈ rules, r.head = name ∧ alternative ∈ r.alternatives := by
  simp [alternativesFor, List.mem_eraseDups, and_assoc]

theorem map_head_gathered (rules : List Rule) :
    (gathered rules).map head = (rules.map head).eraseDups := by
  rw [gathered, List.map_map]
  exact List.map_id _

theorem gathered_concat (rules : List Rule) (r : Rule) :
    gathered (rules ++ [r]) = (appendNew (rules.map head).eraseDups r.head).map fun name =>
      { head := name, alternatives := alternativesFor (rules ++ [r]) name } := by
  rw [appendNew_eraseDups, gathered, List.map_append, List.map_singleton]

/-- A rule that is added last is merged into the rule with its head, or comes at the end. -/
theorem addTo_gathered : addTo (gathered rules) r = gathered (rules ++ [r]) := by
  by_cases hmem : r.head ∈ (rules.map head).eraseDups
  · rw [gathered_concat, appendNew_of_mem hmem, addTo_of_mem (by rwa [map_head_gathered]), gathered,
      List.map_map]
    refine List.map_congr_left fun name _ => ?_
    rw [Function.comp_apply]
    split
    · next hname =>
      subst hname
      rw [alternativesFor_concat_self]
    · next hname => rw [alternativesFor_concat_of_ne (Ne.symm hname)]
  · rw [gathered_concat, appendNew_of_not_mem hmem, addTo_of_not_mem (by rwa [map_head_gathered]),
      List.map_append, List.map_singleton, alternativesFor_concat_self,
      alternativesFor_of_not_mem (mt List.mem_eraseDups.mpr hmem), gathered]
    refine congrArg (· ++ _) (List.map_congr_left fun name hname => ?_)
    rw [alternativesFor_concat_of_ne]
    rintro rfl
    exact hmem hname

/-- Every line spells a rule, and these are the rules. -/
def AreSpelled (rules : List Rule) (lines : List (List Char)) : Prop :=
  List.Forall₂ (fun line r => r.IsSpelled line) lines rules

/-- All lines spell rules, or there is a first one that does not. -/
theorem areSpelled_or_exists (lines : List (List Char)) :
    (∃ rules, AreSpelled rules lines) ∨ ∃ before line after rules,
      lines = before ++ line :: after ∧ AreSpelled rules before ∧ ∀ r : Rule, ¬ r.IsSpelled line := by
  induction lines with
  | nil => exact Or.inl ⟨[], .nil⟩
  | cons line lines ih =>
    cases hline : read? line with
    | none =>
      exact Or.inr ⟨[], line, lines, [], rfl, .nil, read?_eq_none_iff.mp hline⟩
    | some r =>
      have hr := read?_eq_some_iff.mp hline
      rcases ih with ⟨rules, hrules⟩ | ⟨before, bad, after, rules, rfl, hrules, hbad⟩
      · exact Or.inl ⟨r :: rules, .cons hr hrules⟩
      · exact Or.inr ⟨line :: before, bad, after, r :: rules, rfl, .cons hr hrules, hbad⟩

/-- Lines with rules are read before the lines after them. -/
theorem AreSpelled.readLines_append {new : List Rule} (h : AreSpelled new lines) (number : Nat)
    (rules : List Rule) (after : List (List Char)) :
    readLines number (gathered rules) (lines.map Text.trim ++ after) =
      readLines (number + lines.length) (gathered (rules ++ new)) after := by
  induction h generalizing number rules with
  | nil => simp
  | @cons line r lines new hr _ ih =>
    rw [List.map_cons, List.cons_append, readLines, read?_trim, read?_eq_some_iff.mpr hr]
    dsimp only
    rw [addTo_gathered, ih, List.length_cons, Nat.add_assoc, Nat.add_comm 1, ← List.append_cons]

theorem AreSpelled.readLines (h : AreSpelled rules lines) (number : Nat) :
    readLines number [] (lines.map Text.trim) = .ok (gathered rules) := by
  have hread := h.readLines_append number [] []
  rwa [List.append_nil] at hread

theorem AreSpelled.readLines_error (h : AreSpelled rules lines)
    (hline : ∀ r : Rule, ¬ r.IsSpelled line) (number : Nat) (after : List (List Char)) :
    Rule.readLines number [] ((lines ++ line :: after).map Text.trim) =
      .error (.invalidProduction (number + lines.length) (String.ofList (Text.trim line))) := by
  have hread := h.readLines_append number [] ((line :: after).map Text.trim)
  rw [← List.map_append, List.map_cons, Rule.readLines, read?_trim, read?_eq_none_iff.mpr hline] at hread
  exact hread

end Rule

/-! ## Grammars -/

namespace Grammar

variable {rules : List Rule} {lines : List (List Char)} {text : List Char} {name : String}

/-- The lines of a text that are not blank. -/
def filledLines (text : List Char) : List (List Char) :=
  (text.splitOn '\n').filter fun line => line.any fun c => !isBlank c

theorem contentLines_eq (text : List Char) : contentLines text = (filledLines text).map Text.trim := by
  rw [contentLines, List.filter_map, filledLines]
  refine congrArg _ (List.filter_congr fun line _ => ?_)
  rw [Function.comp_apply, Bool.eq_iff_iff, Bool.not_eq_true', List.isEmpty_eq_false_iff, Ne,
    Text.trim_eq_nil_iff]
  simp

/-- A rule has an alternative with the name, and no rule is for it. -/
def IsMissing (rules : List Rule) (name : String) : Prop :=
  (∃ r ∈ rules, ∃ c, .step c name ∈ r.alternatives) ∧ name ∉ rules.map Rule.head

/-- The grammar of some rules, which begins with the head of the first. -/
def ofRules (first : Rule) (rest : List Rule) : Grammar where
  rules := Rule.gathered (first :: rest)
  initial := first.head

/-- What is made of the lines of a text that are not blank: the first line that is no rule is reported
by its number and without the blanks around it; then the lack of lines; then all names that are used
without a rule, in increasing order. Otherwise there is a grammar. -/
inductive Reading (lines : List (List Char)) : Except Fault Grammar → Prop
  | invalidProduction {before after : List (List Char)} {line : List Char} {rules : List Rule}
      (hlines : lines = before ++ line :: after) (hbefore : Rule.AreSpelled rules before)
      (hline : ∀ r : Rule, ¬ r.IsSpelled line) :
      Reading lines
        (.error (.invalidProduction (before.length + 1) (String.ofList (Text.trim line))))
  | missingInitialSymbol (hlines : lines = []) : Reading lines (.error .missingInitialSymbol)
  | undefinedNonTerminals {rules : List Rule} {names : List String}
      (hrules : Rule.AreSpelled rules lines) (hne : names ≠ []) (hsorted : names.Pairwise (· < ·))
      (hnames : ∀ name, name ∈ names ↔ IsMissing rules name) :
      Reading lines (.error (.undefinedNonTerminals names))
  | ok {first : Rule} {rest : List Rule} (hrules : Rule.AreSpelled (first :: rest) lines)
      (hnames : ∀ name, ¬ IsMissing (first :: rest) name) :
      Reading lines (.ok (ofRules first rest))

variable {first : Rule} {rest : List Rule}

theorem mem_undefined_ofRules :
    name ∈ (ofRules first rest).undefined ↔ IsMissing (first :: rest) name := by
  rw [mem_undefined, IsMissing, and_comm]
  refine and_congr ⟨?_, ?_⟩ (not_congr ?_)
  · rintro ⟨n, c, r, hr, rfl, hmem⟩
    obtain ⟨n, -, rfl⟩ := List.mem_map.mp hr
    obtain ⟨r, hr, -, hmem⟩ := Rule.mem_alternativesFor.mp hmem
    exact ⟨r, hr, c, hmem⟩
  · rintro ⟨r, hr, c, hmem⟩
    refine ⟨r.head, c, _, List.mem_map_of_mem ?_, rfl,
      Rule.mem_alternativesFor.mpr ⟨r, hr, rfl, hmem⟩⟩
    exact List.mem_eraseDups.mpr (List.mem_map_of_mem hr)
  · rw [nonTerminals, ofRules, Rule.map_head_gathered, List.mem_eraseDups]

theorem undefined_ofRules {names : List String} (hsorted : names.Pairwise (· < ·))
    (hnames : ∀ name, name ∈ names ↔ IsMissing (first :: rest) name) :
    (ofRules first rest).undefined = names := by
  refine (eq_ascending (hsorted.imp compareOfLessAndEq_eq_lt.mpr) fun name => ?_).symm
  rw [hnames, ← mem_undefined_ofRules, undefined, mem_ascending]

/-- With a rule on every line it remains to check the names. -/
theorem readChars_of_areSpelled (h : Rule.AreSpelled (first :: rest) (filledLines text)) :
    readChars text =
      if (ofRules first rest).undefined.isEmpty then .ok (ofRules first rest)
      else .error (.undefinedNonTerminals (ofRules first rest).undefined) := by
  have hread := h.readLines 1
  rw [← contentLines_eq] at hread
  -- the first rule that was gathered belongs to the first head
  obtain ⟨tail, htail⟩ : ∃ tail, Rule.gathered (first :: rest) =
      { head := first.head, alternatives := Rule.alternativesFor (first :: rest) first.head } ::
        tail := by
    rw [Rule.gathered, List.map_cons, List.eraseDups_cons]
    exact ⟨_, rfl⟩
  rw [readChars, hread, ofRules, htail]
  rfl

theorem Reading.readChars_eq {outcome : Except Fault Grammar}
    (h : Reading (filledLines text) outcome) : readChars text = outcome := by
  cases h with
  | invalidProduction hlines hbefore hline =>
    rw [readChars, contentLines_eq, hlines, hbefore.readLines_error hline 1, Nat.add_comm 1]
    rfl
  | missingInitialSymbol hlines =>
    rw [readChars, contentLines_eq, hlines]
    rfl
  | @undefinedNonTerminals rules names hrules hne hsorted hnames =>
    obtain ⟨name, hname⟩ := List.exists_mem_of_ne_nil _ hne
    cases rules with
    | nil =>
      obtain ⟨⟨r, hr, -⟩, -⟩ := (hnames name).mp hname
      cases hr
    | cons first rest =>
      rw [readChars_of_areSpelled hrules, undefined_ofRules hsorted hnames,
        if_neg (mt List.isEmpty_iff.mp hne)]
  | ok hrules hnames =>
    rw [readChars_of_areSpelled hrules, if_pos]
    refine List.isEmpty_iff.mpr (List.eq_nil_iff_forall_not_mem.mpr fun name => ?_)
    rw [mem_undefined_ofRules]
    exact hnames name

/-- Something is made of any lines. -/
theorem exists_reading (lines : List (List Char)) : ∃ outcome, Reading lines outcome := by
  rcases Rule.areSpelled_or_exists lines with
    ⟨rules, hrules⟩ | ⟨before, line, after, rules, hlines, hbefore, hline⟩
  · cases rules with
    | nil => exact ⟨_, .missingInitialSymbol (List.forall₂_nil_right_iff.mp hrules)⟩
    | cons first rest =>
      have hmem : ∀ name, name ∈ (ofRules first rest).undefined ↔ IsMissing (first :: rest) name :=
        fun _ => mem_undefined_ofRules
      by_cases hundefined : (ofRules first rest).undefined = []
      · refine ⟨_, .ok hrules fun name hmissing => ?_⟩
        have hname := (hmem name).mpr hmissing
        rw [hundefined] at hname
        cases hname
      · have hsorted : (ofRules first rest).undefined.Pairwise (· < ·) :=
          (pairwise_ascending _).imp compareOfLessAndEq_eq_lt.mp
        exact ⟨_, .undefinedNonTerminals hrules hundefined hsorted hmem⟩
  · exact ⟨_, .invalidProduction hlines hbefore hline⟩

/-- **Reading.** The reader gives the outcome that the lines of a text call for, and no other. -/
theorem read_eq_iff {text : String} {outcome : Except Fault Grammar} :
    read text = outcome ↔ Reading (filledLines text.toList) outcome := by
  refine ⟨?_, Reading.readChars_eq⟩
  rintro rfl
  obtain ⟨outcome, h⟩ := exists_reading (filledLines text.toList)
  rwa [read, h.readChars_eq]

/-- A line with an empty piece is reported before a name without a rule, and blank lines do not count. -/
example : read "S -> a B\n \n  S -> a | | b\t" = .error (.invalidProduction 2 "S -> a | | b") := by
  rfl

end Grammar

end RegularSets
