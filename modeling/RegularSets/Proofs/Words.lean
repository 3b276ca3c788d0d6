import Mathlib.Data.List.TakeWhile
import RegularSets.Text

/-!
# Cutting texts

A text can be cut after its first word (`exists_append_of_words_eq_cons`), and so after any of them.
When it is cut at every occurrence of a visible character instead, the words of the pieces depend only
on the words of the text: writing these with single blanks between them changes the pieces, but not
their words (`wordsBetween_congr`). The proof takes the text apart at its blanks, where the
last piece of what is before and the first piece of what is after become one piece (`joinEnds`).
-/

namespace RegularSets.Text

variable {text left right : List Char}

theorem words_append_of_blank {blanks : List Char} (h : ∀ c ∈ blanks, isBlank c = true)
    (text : List Char) : words (blanks ++ text) = words text := by
  induction blanks with
  | nil => rfl
  | cons c rest ih =>
    obtain ⟨hc, hrest⟩ := List.forall_mem_cons.mp h
    rw [List.cons_append, words_cons hc, ih hrest]

theorem words_of_blank {blanks : List Char} (h : ∀ c ∈ blanks, isBlank c = true) :
    words blanks = [] := by
  simpa [words_nil] using words_append_of_blank h []

/-! ## The first word -/

/-- No word before the text can run on into it. -/
def Parted (text : List Char) : Prop :=
  ∀ c, text.head? = some c → isBlank c = true

theorem parted_of_blank {blanks : List Char} (h : ∀ c ∈ blanks, isBlank c = true) : Parted blanks :=
  fun _ hc => h _ (List.mem_of_head? hc)

theorem Parted.of_append (h : Parted (left ++ right)) : Parted left := by
  cases left with
  | nil => exact nofun
  | cons c rest => exact h

theorem words_append (h : Parted right) (left : List Char) :
    words (left ++ right) = words left ++ words right := by
  cases right with
  | nil => rw [List.append_nil, words_nil, List.append_nil]
  | cons c rest => rw [words_append_cons (h c rfl), words_cons (h c rfl)]

/-- Every text is blanks, a run of visible characters, and the rest. -/
theorem exists_append (text : List Char) :
    ∃ blanks word after, text = blanks ++ (word ++ after) ∧ (∀ c ∈ blanks, isBlank c = true) ∧
      (∀ c ∈ word, isBlank c = false) ∧ Parted after ∧ (word = [] → after = []) := by
  induction text with
  | nil => exact ⟨[], [], [], rfl, nofun, nofun, nofun, fun _ => rfl⟩
  | cons c text ih =>
    obtain ⟨blanks, word, after, rfl, hblanks, hword, hafter, hnil⟩ := ih
    by_cases hc : isBlank c = true
    · exact ⟨c :: blanks, word, after, rfl, List.forall_mem_cons.mpr ⟨hc, hblanks⟩, hword, hafter, hnil⟩
    · have hc : isBlank c = false := Bool.eq_false_iff.mpr hc
      cases blanks with
      | nil =>
        exact ⟨[], c :: word, after, rfl, nofun, List.forall_mem_cons.mpr ⟨hc, hword⟩, hafter, nofun⟩
      | cons b blanks =>
        -- the character is a word of its own
        refine ⟨[], [c], _, rfl, nofun, List.forall_mem_singleton.mpr hc, fun d hd => ?_, nofun⟩
        cases hd
        exact hblanks b List.mem_cons_self

theorem words_eq_nil_iff : words text = [] ↔ ∀ c ∈ text, isBlank c = true := by
  refine ⟨fun h => ?_, words_of_blank⟩
  obtain ⟨blanks, word, after, rfl, hblanks, hword, hafter, hnil⟩ := exists_append text
  rw [words_append_of_blank hblanks, words_append hafter, List.append_eq_nil_iff] at h
  have hnone : word = [] := Decidable.byContradiction fun hne => by
    rw [words_eq_singleton hne hword] at h
    cases h.1
  rwa [hnone, hnil hnone, List.append_nil, List.append_nil]

/-- A text is cut after its first word. -/
theorem exists_append_of_words_eq_cons {word : List Char} {rest : List (List Char)}
    (h : words text = word :: rest) :
    ∃ blanks after, text = (blanks ++ word) ++ after ∧ (∀ c ∈ blanks, isBlank c = true) ∧
      IsWord word ∧ Parted after ∧ words after = rest := by
  obtain ⟨blanks, first, after, rfl, hblanks, hfirst, hafter, hnil⟩ := exists_append text
  rw [words_append_of_blank hblanks, words_append hafter] at h
  by_cases hne : first = []
  · rw [hne, hnil hne, words_nil] at h
    cases h
  · rw [words_eq_singleton hne hfirst, List.singleton_append, List.cons.injEq] at h
    obtain ⟨rfl, hrest⟩ := h
    exact ⟨blanks, after, (List.append_assoc _ _ _).symm, hblanks, ⟨hne, hfirst⟩, hafter, hrest⟩

theorem isWord_of_mem_words {word : List Char} (h : word ∈ words text) : IsWord word := by
  generalize hwords : words text = list at h
  induction list generalizing text with
  | nil => cases h
  | cons first rest ih =>
    obtain ⟨-, after, -, -, hfirst, -, hrest⟩ := exists_append_of_words_eq_cons hwords
    rcases List.mem_cons.mp h with rfl | h
    · exact hfirst
    · exact ih hrest h

theorem words_intercalate_words (text : List Char) :
    words ([' '].intercalate (words text)) = words text :=
  words_intercalate fun _ hword => isWord_of_mem_words hword

/-! ## Blanks at the ends -/

theorem words_dropWhile (text : List Char) : words (text.dropWhile isBlank) = words text := by
  have hblank : ∀ c ∈ text.takeWhile isBlank, isBlank c = true := fun _ hc =>
    List.mem_takeWhile_imp hc
  calc words (text.dropWhile isBlank)
      = words (text.takeWhile isBlank ++ text.dropWhile isBlank) :=
        (words_append_of_blank hblank _).symm
    _ = words text := by rw [List.takeWhile_append_dropWhile]

theorem words_reverse_dropWhile (text : List Char) :
    words (text.dropWhile isBlank).reverse = words text.reverse := by
  have hblank : ∀ c ∈ (text.takeWhile isBlank).reverse, isBlank c = true := fun _ hc =>
    List.mem_takeWhile_imp (List.mem_reverse.mp hc)
  calc words (text.dropWhile isBlank).reverse
      = words ((text.dropWhile isBlank).reverse ++ (text.takeWhile isBlank).reverse) := by
        rw [words_append (parted_of_blank hblank), words_of_blank hblank, List.append_nil]
    _ = words text.reverse := by
        rw [← List.reverse_append, List.takeWhile_append_dropWhile]

theorem words_trim (text : List Char) : words (trim text) = words text := by
  rw [trim, words_reverse_dropWhile, List.reverse_reverse, words_dropWhile]

/-- Trimming leaves nothing of a text of blanks, and of no other. -/
theorem trim_eq_nil_iff : trim text = [] ↔ ∀ c ∈ text, isBlank c = true := by
  rw [← words_eq_nil_iff]
  constructor
  · intro h
    rw [← words_trim, h, words_nil]
  · intro h
    have hnone : text.dropWhile isBlank = [] :=
      List.dropWhile_eq_nil_iff.mpr (words_eq_nil_iff.mp h)
    rw [trim, hnone]
    rfl

/-! ## Pieces between marks -/

/-- The pieces of two texts written one after the other: the last piece of the first text and the first
piece of the second become one. -/
def joinEnds {α : Type} : List (List α) → List (List α) → List (List α)
  | [], right => right
  | [last], right => right.modifyHead (last ++ ·)
  | piece :: next :: rest, right => piece :: joinEnds (next :: rest) right

theorem joinEnds_cons {α : Type} {pieces : List (List α)} (h : pieces ≠ []) (piece : List α)
    (right : List (List α)) : joinEnds (piece :: pieces) right = piece :: joinEnds pieces right := by
  cases pieces with
  | nil => exact absurd rfl h
  | cons next rest => rfl

theorem joinEnds_nil_singleton {α : Type} {pieces : List (List α)} (h : pieces ≠ []) :
    joinEnds pieces [[]] = pieces := by
  induction pieces with
  | nil => exact absurd rfl h
  | cons piece rest ih =>
    by_cases hrest : rest = []
    · simp [hrest, joinEnds]
    · rw [joinEnds_cons hrest, ih hrest]

variable {mark : Char}

theorem splitOn_append (left right : List Char) :
    (left ++ right).splitOn mark = joinEnds (left.splitOn mark) (right.splitOn mark) := by
  induction left with
  | nil =>
    obtain ⟨first, rest, hright⟩ := List.exists_cons_of_ne_nil (List.splitOn_ne_nil mark right)
    simp [joinEnds, hright]
  | cons c left ih =>
    have hne := List.splitOn_ne_nil mark left
    rw [List.cons_append, List.splitOn_cons_eq_if_modifyHead, List.splitOn_cons_eq_if_modifyHead, ih]
    split
    · exact (joinEnds_cons hne _ _).symm
    · -- the character goes to the first piece, which may be the one that is joined
      obtain ⟨piece, rest, hleft⟩ := List.exists_cons_of_ne_nil hne
      rw [hleft]
      cases rest with
      | nil => simp [joinEnds, List.modifyHead_modifyHead, Function.comp_def]
      | cons next rest => rfl

/-- The words of the pieces of a text. -/
def wordsBetween (mark : Char) (text : List Char) : List (List (List Char)) :=
  (text.splitOn mark).map words

theorem wordsBetween_ne_nil (text : List Char) : wordsBetween mark text ≠ [] := by
  simp [wordsBetween, List.splitOn_ne_nil]

theorem wordsBetween_nil : wordsBetween mark [] = [[]] := by
  simp [wordsBetween, words_nil]

/-- No word reaches over a blank, also where two pieces are joined. -/
theorem wordsBetween_append_cons (hmark : isBlank mark = false) {c : Char} (hc : isBlank c = true)
    (left right : List Char) :
    wordsBetween mark (left ++ c :: right) =
      joinEnds (wordsBetween mark left) (wordsBetween mark right) := by
  have hne : c ≠ mark := by
    rintro rfl
    rw [hc] at hmark
    cases hmark
  simp only [wordsBetween, splitOn_append, List.splitOn_cons_eq_if_modifyHead, beq_iff_eq, hne,
    if_false]
  generalize left.splitOn mark = leftPieces
  obtain ⟨first, back, hright⟩ := List.exists_cons_of_ne_nil (List.splitOn_ne_nil mark right)
  rw [hright]
  induction leftPieces with
  | nil => simp [joinEnds, words_cons hc]
  | cons piece rest ih =>
    cases rest with
    | nil => simp [joinEnds, words_append_cons hc]
    | cons next rest => simpa [joinEnds] using ih

theorem wordsBetween_append_of_blank (hmark : isBlank mark = false) {blanks : List Char}
    (h : ∀ c ∈ blanks, isBlank c = true) (text : List Char) :
    wordsBetween mark (blanks ++ text) = wordsBetween mark text := by
  induction blanks with
  | nil => rfl
  | cons c rest ih =>
    obtain ⟨hc, hrest⟩ := List.forall_mem_cons.mp h
    obtain ⟨first, back, htext⟩ := List.exists_cons_of_ne_nil (wordsBetween_ne_nil text)
    have hjoin := wordsBetween_append_cons hmark hc [] (rest ++ text)
    rw [wordsBetween_nil, ih hrest, htext] at hjoin
    rw [htext]
    exact hjoin

/-- Written with single blanks between its words, a text has the same words between marks. -/
theorem wordsBetween_intercalate (hmark : isBlank mark = false) (text : List Char) :
    wordsBetween mark ([' '].intercalate (words text)) = wordsBetween mark text := by
  generalize hwords : words text = list
  induction list generalizing text with
  | nil =>
    have hnone := wordsBetween_append_of_blank hmark (words_eq_nil_iff.mp hwords) []
    rw [List.append_nil] at hnone
    exact hnone.symm
  | cons word rest ih =>
    obtain ⟨blanks, after, rfl, hblanks, -, hafter, hrest⟩ := exists_append_of_words_eq_cons hwords
    rw [List.append_assoc, wordsBetween_append_of_blank hmark hblanks]
    cases after with
    | nil =>
      rw [words_nil] at hrest
      rw [← hrest, List.intercalate_singleton, List.append_nil]
    | cons c right =>
      have hc := hafter c rfl
      rw [words_cons hc] at hrest
      rw [wordsBetween_append_cons hmark hc, ← ih right hrest]
      by_cases hnone : rest = []
      · rw [hnone, List.intercalate_singleton, List.intercalate_nil, wordsBetween_nil,
          joinEnds_nil_singleton (wordsBetween_ne_nil _)]
      · rw [List.intercalate_cons_of_ne_nil hnone, List.append_assoc, List.singleton_append,
          wordsBetween_append_cons hmark rfl]

/-- Only the words of a text matter for the words between marks. -/
theorem wordsBetween_congr (hmark : isBlank mark = false) {other : List Char}
    (h : words text = words other) : wordsBetween mark text = wordsBetween mark other := by
  rw [← wordsBetween_intercalate hmark text, h, wordsBetween_intercalate hmark]

end RegularSets.Text
