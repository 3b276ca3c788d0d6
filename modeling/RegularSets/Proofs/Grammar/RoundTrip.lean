import Mathlib.Data.List.Forall2
import RegularSets.Proofs.Automaton.Grammar

/-!
# Reading what was written

A grammar that is written and read again is the same grammar (`Grammar.Proper.reads_back`), provided
it is one that reading can give at all: its heads are distinct, the first of them initial, no
alternative is repeated in a rule, every name that is used has a rule, and every rule can be written on
a line (`Rule.Legal`: there are alternatives, terminals are terminals and names are names). Reading
gives only such grammars, and so does an automaton whose accepted words consist of terminals
(`Grammar.proper_of_read`, `Automaton.proper_of_toGrammar`).

A rule is written as words with single blanks between them (`Rule.chars_eq`), so splitting its line
into words finds them again. Cutting the words after the arrow at the bars leaves blanks around the
alternatives, but only the words of a piece matter (`Alternative.read?_eq_of_words`).
-/

namespace RegularSets

/-! ## Characters -/

theorem not_isBlank_of_isTerminal {c : Char} (h : isTerminal c = true) : isBlank c = false := by
  simp only [isTerminal, Bool.and_eq_true, Bool.not_eq_true'] at h
  exact h.1.1.1.1.1

theorem ne_of_isTerminal {c d : Char} (h : isTerminal c = true) (hd : isTerminal d = false) :
    c ≠ d := by
  rintro rfl
  rw [h] at hd
  cases hd

/-- The characters of names are ASCII capitals, ASCII digits and apostrophes. -/
theorem isNameChar_of_isNonTerminal {name : List Char} (h : isNonTerminal name = true) :
    ∀ c ∈ name, c.isUpper = true ∨ c.isDigit = true ∨ c = roundMark := by
  cases name with
  | nil => exact nofun
  | cons first rest =>
    simp only [isNonTerminal, Bool.and_eq_true, List.all_eq_true, Bool.or_eq_true,
      decide_eq_true_eq] at h
    exact List.forall_mem_cons.mpr ⟨Or.inl h.1, fun c hc => Or.inr (h.2 c hc)⟩

/-- Such characters are printable ASCII characters before the bar. -/
theorem toNat_mem_of_isNameChar {c : Char} (h : c.isUpper = true ∨ c.isDigit = true ∨ c = roundMark) :
    0x27 ≤ c.toNat ∧ c.toNat ≤ 0x5A := by
  rcases h with h | h | rfl
  · obtain ⟨hlo, hhi⟩ : 'A'.val ≤ c.val ∧ c.val ≤ 'Z'.val := of_decide_eq_true h
    rw [UInt32.le_iff_toNat_le] at hlo hhi
    exact ⟨Nat.le_trans (by decide) hlo, hhi⟩
  · simp only [Char.isDigit, decide_eq_true_eq, ge_iff_le, UInt32.le_iff_toNat_le,
      Bool.and_eq_true] at h
    exact ⟨Nat.le_trans (by decide) h.1, Nat.le_trans h.2 (by decide)⟩
  · decide

theorem not_isBlank_of_toNat {c : Char} (hlo : 0x27 ≤ c.toNat) (hhi : c.toNat ≤ 0x5A) :
    isBlank c = false := by
  simp only [isBlank, blankRanges, inRange, List.any_cons, List.any_nil, Bool.or_eq_false_iff,
    Bool.and_eq_false_iff, decide_eq_false_iff_not, and_true]
  omega

open Text (IsWord)

theorem isWord_of_isNonTerminal {name : List Char} (h : isNonTerminal name = true) :
    IsWord name := by
  refine ⟨?_, fun c hc => ?_⟩
  · rintro rfl
    cases h
  · have hc := toNat_mem_of_isNameChar (isNameChar_of_isNonTerminal h c hc)
    exact not_isBlank_of_toNat hc.1 hc.2

theorem barSign_not_mem_of_isNonTerminal {name : List Char} (h : isNonTerminal name = true) :
    barSign ∉ name := fun hc =>
  absurd (toNat_mem_of_isNameChar (isNameChar_of_isNonTerminal h _ hc)).2 (by decide)

theorem isWord_singleton {c : Char} (h : isBlank c = false) : IsWord [c] :=
  ⟨List.cons_ne_nil _ _, List.forall_mem_singleton.mpr h⟩

theorem isWord_arrow : IsWord arrow where
  ne_nil := List.cons_ne_nil _ _
  visible := List.forall_mem_cons.mpr ⟨rfl, List.forall_mem_singleton.mpr rfl⟩

/-! ## Alternatives -/

namespace Alternative

variable {alternative : Alternative} {alternatives : List Alternative} {text piece : List Char}

/-- Terminals are terminals and names are names. -/
def Legal : Alternative → Prop
  | emptyWord => True
  | terminal c => isTerminal c = true
  | step c name => isTerminal c = true ∧ isNonTerminal name.toList = true

/-- The words of a written alternative. -/
def words : Alternative → List (List Char)
  | emptyWord => [[emptyWordSign]]
  | terminal c => [[c]]
  | step c name => [[c], name.toList]

theorem chars_eq (alternative : Alternative) :
    alternative.chars = [' '].intercalate alternative.words := by
  cases alternative <;> simp [chars, words]

theorem words_ne_nil (alternative : Alternative) : alternative.words ≠ [] := by
  cases alternative <;> exact List.cons_ne_nil _ _

theorem Legal.isWord (h : alternative.Legal) : ∀ word ∈ alternative.words, IsWord word := by
  cases alternative with
  | emptyWord => exact List.forall_mem_singleton.mpr (isWord_singleton rfl)
  | terminal c =>
    exact List.forall_mem_singleton.mpr (isWord_singleton (not_isBlank_of_isTerminal h))
  | step c name =>
    exact List.forall_mem_cons.mpr ⟨isWord_singleton (not_isBlank_of_isTerminal h.1),
      List.forall_mem_singleton.mpr (isWord_of_isNonTerminal h.2)⟩

theorem Legal.barSign_not_mem (h : alternative.Legal) : barSign ∉ alternative.chars := by
  have hbar : isTerminal barSign = false := by decide
  cases alternative with
  | emptyWord => decide
  | terminal c => exact List.not_mem_cons_of_ne_of_not_mem (ne_of_isTerminal h hbar).symm nofun
  | step c name =>
    refine List.not_mem_cons_of_ne_of_not_mem (ne_of_isTerminal h.1 hbar).symm ?_
    exact List.not_mem_cons_of_ne_of_not_mem (by decide) (barSign_not_mem_of_isNonTerminal h.2)

theorem read?_eq_of_words (h : alternative.Legal) (hwords : Text.words piece = alternative.words) :
    read? piece = some alternative := by
  have hsign : isTerminal emptyWordSign = false := by decide
  rw [read?, hwords]
  cases alternative with
  | emptyWord => rfl
  | terminal c => simp [words, ne_of_isTerminal h hsign, show isTerminal c = true from h]
  | step c name => simp [words, h.1, h.2]

theorem read?_congr {piece' : List Char} (h : Text.words piece = Text.words piece') :
    read? piece = read? piece' := by
  rw [read?, read?, h]

/-- The words of the piece are those of the alternative. -/
def IsSpelled (alternative : Alternative) (piece : List Char) : Prop :=
  alternative.Legal ∧ Text.words piece = alternative.words

theorem isSpelled_of_read? (h : read? piece = some alternative) : alternative.IsSpelled piece := by
  rw [read?] at h
  split at h
  · next c hwords =>
    split at h
    · next hc =>
      cases h
      exact ⟨trivial, hwords.trans (by rw [hc]; rfl)⟩
    · split at h
      · next hc =>
        cases h
        exact ⟨hc, hwords⟩
      · cases h
  · next c name hwords =>
    split at h
    · next hlegal =>
      cases h
      rw [Bool.and_eq_true] at hlegal
      rw [IsSpelled, Legal, words, String.toList_ofList]
      exact ⟨hlegal, hwords⟩
    · cases h
  · cases h

theorem read?_eq_some_iff : read? piece = some alternative ↔ alternative.IsSpelled piece :=
  ⟨isSpelled_of_read?, fun h => read?_eq_of_words h.1 h.2⟩

theorem legal_of_read? (h : read? piece = some alternative) : alternative.Legal :=
  (isSpelled_of_read? h).1

/-- The pieces between the bars of a text are read as these alternatives. -/
def ReadsAs (text : List Char) (alternatives : List Alternative) : Prop :=
  List.Forall₂ (fun piece alternative => read? piece = some alternative) (text.splitOn barSign)
    alternatives

theorem mapM_read?_eq_some_iff {pieces : List (List Char)} :
    pieces.mapM read? = some alternatives ↔
      List.Forall₂ (fun piece alternative => read? piece = some alternative) pieces
        alternatives := by
  induction pieces generalizing alternatives with
  | nil => simp [eq_comm]
  | cons piece pieces ih =>
    rw [List.mapM_cons, List.forall₂_cons_left_iff]
    simp only [Option.bind_eq_bind, Option.bind_eq_some_iff, Option.pure_def, Option.some.injEq, ih]
    constructor
    · rintro ⟨alternative, hfirst, rest, hrest, rfl⟩
      exact ⟨alternative, rest, hfirst, hrest, rfl⟩
    · rintro ⟨alternative, rest, hfirst, hrest, rfl⟩
      exact ⟨alternative, hfirst, rest, hrest, rfl⟩

theorem legal_of_forall₂_read? {pieces : List (List Char)}
    (h : List.Forall₂ (fun piece alternative => read? piece = some alternative) pieces
      alternatives) : ∀ alternative ∈ alternatives, alternative.Legal := by
  induction h with
  | nil => exact nofun
  | cons hfirst _ ih => exact List.forall_mem_cons.mpr ⟨legal_of_read? hfirst, ih⟩

theorem ReadsAs.cons_blank (h : ReadsAs text alternatives) : ReadsAs (' ' :: text) alternatives := by
  rw [ReadsAs, List.splitOn_cons_eq_if_modifyHead, if_neg (by decide)]
  obtain ⟨first, rest, hpieces⟩ := List.exists_cons_of_ne_nil (List.splitOn_ne_nil barSign text)
  rw [ReadsAs, hpieces] at h
  rw [hpieces]
  cases h with
  | cons hfirst hrest => exact .cons ((read?_congr (Text.words_cons rfl _)).trans hfirst) hrest

/-- All words of some alternatives, with bars between those of different alternatives. -/
def barred (alternatives : List Alternative) : List (List Char) :=
  [[barSign]].intercalate (alternatives.map words)

theorem barred_singleton (alternative : Alternative) : barred [alternative] = alternative.words := by
  simp [barred]

theorem barred_cons_cons (first next : Alternative) (rest : List Alternative) :
    barred (first :: next :: rest) = first.words ++ [barSign] :: barred (next :: rest) := by
  simp [barred]

theorem barred_ne_nil (h : alternatives ≠ []) : barred alternatives ≠ [] := by
  cases alternatives with
  | nil => exact absurd rfl h
  | cons first rest =>
    cases rest with
    | nil => exact barred_singleton first ▸ first.words_ne_nil
    | cons next rest => simp [barred_cons_cons]

theorem intercalate_barred_cons_cons (first next : Alternative) (rest : List Alternative) :
    [' '].intercalate (barred (first :: next :: rest)) =
      (first.chars ++ [' ']) ++ barSign :: ' ' :: [' '].intercalate (barred (next :: rest)) := by
  rw [barred_cons_cons, Text.intercalate_append first.words_ne_nil (List.cons_ne_nil _ _), ← chars_eq,
    List.intercalate_cons_of_ne_nil (barred_ne_nil (List.cons_ne_nil _ _))]
  simp

theorem isWord_of_mem_barred (h : ∀ alternative ∈ alternatives, alternative.Legal) :
    ∀ word ∈ barred alternatives, IsWord word := by
  induction alternatives with
  | nil => exact nofun
  | cons first rest ih =>
    obtain ⟨hfirst, hrest⟩ := List.forall_mem_cons.mp h
    cases rest with
    | nil => exact barred_singleton first ▸ hfirst.isWord
    | cons next rest =>
      rw [barred_cons_cons]
      exact List.forall_mem_append.mpr ⟨hfirst.isWord,
        List.forall_mem_cons.mpr ⟨isWord_singleton rfl, ih hrest⟩⟩

/-- Written alternatives have a blank before each of them. -/
theorem intercalate_chars (hne : alternatives ≠ []) :
    [' ', barSign].intercalate (alternatives.map fun alternative => ' ' :: alternative.chars) =
      ' ' :: [' '].intercalate (barred alternatives) := by
  induction alternatives with
  | nil => exact absurd rfl hne
  | cons first rest ih =>
    cases rest with
    | nil => simp [barred_singleton, chars_eq]
    | cons next rest =>
      rw [List.map_cons, List.intercalate_cons_of_ne_nil (by simp), ih (List.cons_ne_nil _ _),
        intercalate_barred_cons_cons]
      simp

/-- With blanks between the words, the alternatives are read between the bars. -/
theorem readsAs_barred (hne : alternatives ≠ [])
    (h : ∀ alternative ∈ alternatives, alternative.Legal) :
    ReadsAs ([' '].intercalate (barred alternatives)) alternatives := by
  induction alternatives with
  | nil => exact absurd rfl hne
  | cons first rest ih =>
    obtain ⟨hfirst, hrest⟩ := List.forall_mem_cons.mp h
    have hwords : Text.words first.chars = first.words := by
      rw [chars_eq, Text.words_intercalate hfirst.isWord]
    cases rest with
    | nil =>
      rw [barred_singleton, ← chars_eq, ReadsAs, List.splitOn_eq_singleton hfirst.barSign_not_mem]
      exact .cons (read?_eq_of_words hfirst hwords) .nil
    | cons next rest =>
      have hbar : barSign ∉ first.chars ++ [' '] := by
        simpa [barSign] using hfirst.barSign_not_mem
      rw [intercalate_barred_cons_cons, ReadsAs, List.splitOn_append_cons_self_of_not_mem hbar]
      refine .cons (read?_eq_of_words hfirst ?_) (ih (List.cons_ne_nil _ _) hrest).cons_blank
      rw [Text.words_concat rfl, hwords]

end Alternative

/-! ## Rules -/

namespace Rule

variable {r : Rule} {rules : List Rule} {line : List Char}

/-- The rule can be written: its head is a name, and it has alternatives, all of which are legal. -/
structure Legal (r : Rule) : Prop where
  head : isNonTerminal r.head.toList = true
  ne_nil : r.alternatives ≠ []
  alternatives : ∀ alternative ∈ r.alternatives, alternative.Legal

/-- The words of a written rule. -/
def words (r : Rule) : List (List Char) :=
  r.head.toList :: arrow :: Alternative.barred r.alternatives

theorem Legal.isWord (h : r.Legal) : ∀ word ∈ r.words, IsWord word := by
  refine List.forall_mem_cons.mpr ⟨isWord_of_isNonTerminal h.head, List.forall_mem_cons.mpr ⟨?_, ?_⟩⟩
  · exact isWord_arrow
  · exact Alternative.isWord_of_mem_barred h.alternatives

theorem chars_eq (h : r.Legal) : r.chars = [' '].intercalate r.words := by
  rw [chars, Alternative.intercalate_chars h.ne_nil, words, List.intercalate_cons_cons,
    List.intercalate_cons_of_ne_nil (Alternative.barred_ne_nil h.ne_nil)]
  simp

theorem read?_eq_some_iff_words :
    read? line = some r ↔ isNonTerminal r.head.toList = true ∧
      ∃ rest, rest ≠ [] ∧ Text.words line = r.head.toList :: arrow :: rest ∧
        Alternative.ReadsAs ([' '].intercalate rest) r.alternatives := by
  simp only [Alternative.ReadsAs, ← Alternative.mapM_read?_eq_some_iff]
  constructor
  · intro h
    rw [read?] at h
    split at h
    · next head sign first rest hwords =>
      split at h
      · next hlegal =>
        obtain ⟨alternatives, halternatives, hr⟩ := Option.bind_eq_some_iff.mp h
        cases hr
        rw [Bool.and_eq_true, decide_eq_true_eq] at hlegal
        obtain ⟨rfl, hhead⟩ := hlegal
        rw [String.toList_ofList]
        exact ⟨hhead, _, List.cons_ne_nil first rest, hwords, halternatives⟩
      · cases h
    · cases h
  · rintro ⟨hhead, rest, hne, hwords, halternatives⟩
    obtain ⟨first, rest, rfl⟩ := List.exists_cons_of_ne_nil hne
    rw [read?, hwords]
    simp [hhead, halternatives]

theorem read?_chars (h : r.Legal) : read? r.chars = some r := by
  refine read?_eq_some_iff_words.mpr ⟨h.head, Alternative.barred r.alternatives, ?_, ?_, ?_⟩
  · exact Alternative.barred_ne_nil h.ne_nil
  · rw [chars_eq h, Text.words_intercalate h.isWord, words]
  · exact Alternative.readsAs_barred h.ne_nil h.alternatives

theorem legal_of_read? (h : read? line = some r) : r.Legal := by
  obtain ⟨hhead, rest, -, -, halternatives⟩ := read?_eq_some_iff_words.mp h
  refine ⟨hhead, fun hnone => ?_, Alternative.legal_of_forall₂_read? halternatives⟩
  rw [hnone] at halternatives
  exact List.splitOn_ne_nil _ _ (List.forall₂_nil_right_iff.mp halternatives)

theorem Legal.chars_ne_nil (h : r.Legal) : r.chars ≠ [] := by
  have hhead := (isWord_of_isNonTerminal h.head).ne_nil
  simp [chars, hhead]

theorem Legal.trim_chars (h : r.Legal) : Text.trim r.chars = r.chars := by
  rw [chars_eq h, Text.trim_intercalate h.isWord]

theorem Legal.lineFeed_not_mem (h : r.Legal) : '\n' ∉ r.chars := by
  rw [chars_eq h]
  intro hmem
  rcases Text.mem_intercalate hmem with hmem | ⟨word, hword, hmem⟩
  · exact absurd hmem (by decide)
  · exact absurd ((h.isWord word hword).visible _ hmem) (by decide)

/-- A legal rule without repeated alternatives. -/
structure Proper (r : Rule) : Prop extends r.Legal where
  nodup : r.alternatives.Nodup

theorem proper_merge {name : String} {old new : List Alternative} (hhead : isNonTerminal name.toList)
    (hnodup : old.Nodup) (hold : ∀ alternative ∈ old, alternative.Legal) (hne : new ≠ [])
    (hnew : ∀ alternative ∈ new, alternative.Legal) :
    Proper { head := name, alternatives := mergeAlternatives old new } where
  head := hhead
  ne_nil := by
    obtain ⟨alternative, hmem⟩ := List.exists_mem_of_ne_nil _ hne
    exact List.ne_nil_of_mem (mem_foldl_appendNew.mpr (Or.inr hmem))
  alternatives alternative hmem :=
    (mem_foldl_appendNew.mp hmem).elim (hold alternative) (hnew alternative)
  nodup := nodup_foldl_appendNew hnodup

/-- What adding rules one after the other gives. -/
structure Collected (rules : List Rule) : Prop where
  proper : ∀ r ∈ rules, r.Proper
  nodup_heads : (rules.map head).Nodup

theorem collected_nil : Collected [] :=
  ⟨nofun, List.nodup_nil⟩

theorem addTo_of_not_mem (h : r.head ∉ rules.map head) :
    addTo rules r = rules ++ [{ r with alternatives := mergeAlternatives [] r.alternatives }] := by
  rw [addTo, if_neg]
  simpa using h

theorem addTo_of_mem (h : r.head ∈ rules.map head) :
    addTo rules r = rules.map fun old =>
      if old.head = r.head then
        { old with alternatives := mergeAlternatives old.alternatives r.alternatives }
      else old := by
  rw [addTo, if_pos]
  simpa using h

theorem map_head_addTo : (addTo rules r).map head = appendNew (rules.map head) r.head := by
  by_cases h : r.head ∈ rules.map head
  · rw [appendNew_of_mem h, addTo_of_mem h, List.map_map]
    refine List.map_congr_left fun old _ => ?_
    rw [Function.comp_apply]
    split <;> rfl
  · rw [appendNew_of_not_mem h, addTo_of_not_mem h, List.map_append]
    rfl

theorem Collected.addTo (h : Collected rules) (hr : r.Legal) : Collected (addTo rules r) where
  nodup_heads := map_head_addTo ▸ nodup_appendNew h.nodup_heads
  proper := by
    rw [Rule.addTo]
    split
    · refine List.forall_mem_map.mpr fun old hold => ?_
      have hold := h.proper old hold
      split
      · exact proper_merge hold.head hold.nodup hold.alternatives hr.ne_nil hr.alternatives
      · exact hold
    · exact List.forall_mem_append.mpr ⟨h.proper, List.forall_mem_singleton.mpr
        (proper_merge hr.head List.nodup_nil nofun hr.ne_nil hr.alternatives)⟩

theorem Collected.readLines {number : Nat} {texts : List (List Char)} {result : List Rule}
    (h : Collected rules) (hread : readLines number rules texts = .ok result) :
    Collected result := by
  induction texts generalizing number rules with
  | nil =>
    cases hread
    exact h
  | cons text rest ih =>
    rw [Rule.readLines] at hread
    split at hread
    · cases hread
    · next r hr => exact ih (h.addTo (legal_of_read? hr)) hread

/-- New heads and distinct alternatives are kept as they are. -/
theorem Collected.addTo_eq (h : Collected (rules ++ [r])) : Rule.addTo rules r = rules ++ [r] := by
  have hnodup := h.nodup_heads
  rw [List.map_append, List.nodup_append] at hnodup
  have hmem : r.head ∉ rules.map head := fun hmem =>
    hnodup.2.2 _ hmem _ List.mem_cons_self rfl
  have hr := h.proper r (List.mem_append_right _ List.mem_cons_self)
  have hmerge : mergeAlternatives [] r.alternatives = r.alternatives :=
    foldl_appendNew_of_nodup hr.nodup
  rw [addTo_of_not_mem hmem, hmerge]

theorem Collected.of_append {new : List Rule} (h : Collected (rules ++ new)) : Collected rules where
  proper r hr := h.proper r (List.mem_append_left _ hr)
  nodup_heads := (List.nodup_append.mp (List.map_append ▸ h.nodup_heads)).1

theorem Collected.readLines_chars {number : Nat} {new : List Rule} (h : Collected (rules ++ new)) :
    Rule.readLines number rules (new.map chars) = .ok (rules ++ new) := by
  induction new generalizing number rules with
  | nil => rw [List.append_nil]; rfl
  | cons r rest ih =>
    rw [List.append_cons] at h ⊢
    have hr := h.of_append.proper r (List.mem_append_right _ List.mem_cons_self)
    rw [List.map_cons, Rule.readLines, read?_chars hr.toLegal]
    dsimp only
    rw [h.of_append.addTo_eq, ih h]

end Rule

/-! ## Grammars -/

namespace Grammar

variable {g : Grammar} {rules : List Rule} {text : String}

/-- What reading can give: the first rule belongs to the initial symbol, and every name that is used
has a rule. -/
structure Proper (g : Grammar) : Prop where
  collected : Rule.Collected g.rules
  initial : g.nonTerminals.head? = some g.initial
  undefined : g.undefined = []

/-- The lines that hold something are those of the rules. -/
theorem contentLines_chars (h : ∀ r ∈ rules, r.Legal) :
    contentLines (rules.flatMap fun r => r.chars ++ ['\n']) = rules.map Rule.chars := by
  induction rules with
  | nil => simp [contentLines, Text.trim]
  | cons r rest ih =>
    obtain ⟨hr, hrest⟩ := List.forall_mem_cons.mp h
    rw [contentLines, List.flatMap_cons, List.append_assoc, List.singleton_append,
      List.splitOn_append_cons_self_of_not_mem hr.lineFeed_not_mem, List.map_cons, hr.trim_chars,
      List.filter_cons_of_pos (by simpa using hr.chars_ne_nil), List.map_cons, ← ih hrest]
    rfl

theorem Proper.read_chars (h : g.Proper) : readChars g.chars = .ok g := by
  obtain ⟨rules, initial⟩ := g
  have hread : Rule.readLines 1 [] (contentLines (Grammar.chars ⟨rules, initial⟩)) = .ok rules := by
    rw [Grammar.chars, contentLines_chars fun r hr => (h.collected.proper r hr).toLegal]
    have hcollected : Rule.Collected ([] ++ rules) := h.collected
    exact hcollected.readLines_chars
  have hinitial := h.initial
  have hundefined := h.undefined
  rw [readChars, hread]
  cases rules with
  | nil => cases hinitial
  | cons first rest =>
    cases hinitial
    simp only [Except.bind, bind]
    rw [hundefined]
    rfl

theorem Proper.reads_back (h : g.Proper) : read g.render = .ok g := by
  rw [read, render, String.toList_ofList, h.read_chars]

theorem proper_of_read (h : read text = .ok g) : g.Proper := by
  have hundefined := undefined_of_read h
  obtain ⟨rules, hrules, h⟩ := exists_of_bind_eq_ok h
  have hcollected := Rule.collected_nil.readLines hrules
  split at h
  · cases h
  · dsimp only at h
    split at h
    · cases h
      exact ⟨hcollected, rfl, hundefined⟩
    · cases h

end Grammar

/-! ## Grammars of automata -/

namespace Automaton

variable {a : Automaton} {g : Grammar} {s : State} (h : a.WellFormed)
  (hwords : ∀ word, a.Accepts word → ∀ c ∈ word, isTerminal c = true)

include h hwords

/-- The alternatives are legal because every label of the prepared automaton is in an accepted word. -/
theorem legal_of_mem_prepared (hs : s ∈ a.prepared.states) :
    Rule.Legal { head := s, alternatives := a.prepared.alternativesOf s } where
  head := isNonTerminal_of_mem_prepared h hs
  ne_nil := by
    -- a live state accepts or has a transition
    obtain ⟨-, word, hword⟩ := useful_prepared h hs
    cases word with
    | nil =>
      have hmem := emptyWord_mem_alternativesOf.mpr (acceptsFrom_nil.mp hword)
      exact List.ne_nil_of_mem hmem
    | cons c word =>
      obtain ⟨t, ht, -⟩ := acceptsFrom_cons.mp hword
      exact List.ne_nil_of_mem (step_mem_alternativesOf.mpr ht)
  alternatives alternative hmem := by
    cases alternative with
    | emptyWord => trivial
    | terminal c => exact absurd hmem terminal_not_mem_alternativesOf
    | step c t =>
      have ht := step_mem_alternativesOf.mp hmem
      have htarget := (wellFormed_prepared h).mem_of_target ht
      obtain ⟨before, after, hacc⟩ := exists_accepts_of_path (useful_prepared h hs).1
        (.cons ht (.nil t)) (useful_prepared h htarget).2
      exact ⟨hwords _ ((accepts_prepared h).mp hacc) c (by simp),
        isNonTerminal_of_mem_prepared h htarget⟩

theorem proper_of_toGrammar (hg : a.toGrammar = .ok g) : g.Proper := by
  have hundefined := undefined_of_toGrammar h hg
  obtain ⟨i, hi, rfl⟩ := exists_of_toGrammar h hg
  have hw := wellFormed_prepared h
  refine ⟨⟨?_, nodup_nonTerminals_grammarFrom hw⟩, ?_, hundefined⟩
  · refine List.forall_mem_map.mpr fun s hs => ?_
    have hs : s ∈ a.prepared.states := by
      rwa [← mem_nonTerminals_grammarFrom (hw.initial_mem hi), nonTerminals_grammarFrom]
    exact ⟨legal_of_mem_prepared h hwords hs, nodup_alternativesOf hw⟩
  · rw [nonTerminals_grammarFrom]
    rfl

end Automaton

namespace Grammar

variable {g : Grammar}

/-- **Round trip.** A grammar that was read, or that belongs to an automaton whose labels are
terminals, is written in such a way that reading gives it back. -/
theorem read_render (h : (∃ text, read text = .ok g) ∨
      ∃ a : Automaton, a.WellFormed ∧ (∀ s c t, t ∈ a.targets s c → isTerminal c = true) ∧
        a.toGrammar = .ok g) :
    read g.render = .ok g := by
  rcases h with ⟨text, hread⟩ | ⟨a, hw, hlabels, hg⟩
  · exact (proper_of_read hread).reads_back
  · refine (Automaton.proper_of_toGrammar hw (fun word hacc => ?_) hg).reads_back
    obtain ⟨s, t, -, hpath, -⟩ := hacc
    exact hpath.forall_label hlabels

/-- What is read from two lines for one head and a repeated alternative. The parts of the arrow are
terminals. -/
def merged : Grammar where
  rules :=
    [⟨"A'", [.step '-' "B7", .terminal '>', .step 'λ' "A'"]⟩, ⟨"B7", [.terminal 'é', .emptyWord]⟩]
  initial := "A'"

/-- The grammar of `Automaton.oddlyNamed`, which has new names. -/
def renamed : Grammar where
  rules := [⟨"A", [.step 'x' "B", .step 'x' "A"]⟩, ⟨"B", [.step 'y' "C"]⟩, ⟨"C", [.emptyWord]⟩]
  initial := "A"

theorem read_render_merged_renamed :
    (read "A' -> - B7|>\n\nB7 -> é | & | é\n A' -> > | λ A'" = .ok merged ∧
      read merged.render = .ok merged) ∧
    (Automaton.oddlyNamed.toGrammar = .ok renamed ∧ read renamed.render = .ok renamed) := by
  have hread : read "A' -> - B7|>\n\nB7 -> é | & | é\n A' -> > | λ A'" = .ok merged := by rfl
  have hgrammar : Automaton.oddlyNamed.toGrammar = .ok renamed := by decide +kernel
  have hlabels : Automaton.oddlyNamed.alphabet.all isTerminal = true := by decide +kernel
  refine ⟨⟨hread, read_render (Or.inl ⟨_, hread⟩)⟩, hgrammar, read_render (Or.inr ?_)⟩
  exact ⟨_, Automaton.wellFormed_oddlyNamed,
    fun _ _ _ ht => List.all_eq_true.mp hlabels _ (Automaton.mem_alphabet ht), hgrammar⟩

end Grammar

end RegularSets
