/-!
# Texts

What the notations of regular sets share. Blank and control characters are two properties of Unicode
characters, both given by their ranges of code points: `isBlank` is the property White_Space, which
separates the words of a grammar and is dropped from an expression; `isControl` is the general category
Cc.

Lists of items are shown in three forms: `spaced` puts a blank before every item, `braced` puts spaced
items between braces, and `lines` ends every item with a line feed.

A text that is read is a list of characters. `words` are the runs of characters between its blanks, and
`trim` drops the blanks at both ends. Words that are written with single blanks between them are found
again (`words_intercalate`), and such a text has no blanks at its ends (`trim_intercalate`).
-/

namespace RegularSets

/-! ## Blank and control characters -/

/-- Code points from `lo` to `hi`, both included. -/
def inRange (lo hi : Nat) (c : Char) : Bool :=
  lo ≤ c.toNat && c.toNat ≤ hi

/-- The ranges of code points with the property White_Space. -/
def blankRanges : List (Nat × Nat) :=
  [(0x09, 0x0D), (0x20, 0x20), (0x85, 0x85), (0xA0, 0xA0), (0x1680, 0x1680), (0x2000, 0x200A),
   (0x2028, 0x2029), (0x202F, 0x202F), (0x205F, 0x205F), (0x3000, 0x3000)]

/-- White_Space: the characters that only separate. -/
def isBlank (c : Char) : Bool :=
  blankRanges.any fun (lo, hi) => inRange lo hi c

/-- The control characters, at the start of the ASCII and of the Latin-1 half. -/
def isControl (c : Char) : Bool :=
  inRange 0x00 0x1F c || inRange 0x7F 0x9F c

namespace Text

/-! ## Lists of items -/

/-- The items, a blank before each. -/
def spaced (items : List String) : String :=
  String.join (items.map fun item => " " ++ item)

/-- The spaced items between braces; a blank stands before the closing brace. -/
def braced (items : List String) : String :=
  "\x7b" ++ spaced items ++ " \x7d"

/-- The items, a line feed after each. -/
def lines (items : List String) : String :=
  String.join (items.map fun item => item ++ "\n")

/-! ## Words -/

/-- The maximal runs of characters that are not blank. -/
def words (text : List Char) : List (List Char) :=
  (text.splitOnP isBlank).filter fun piece => !piece.isEmpty

/-- The text without the blanks at its two ends. -/
def trim (text : List Char) : List Char :=
  ((text.dropWhile isBlank).reverse.dropWhile isBlank).reverse

/-- A text without blanks is a word of its own. -/
theorem words_eq_singleton {text : List Char} (hne : text ≠ [])
    (h : ∀ c ∈ text, isBlank c = false) : words text = [text] := by
  simp [words, List.splitOnP_eq_singleton h, hne]

/-- Words on both sides of a blank are found apart. -/
theorem words_append_cons {c : Char} (h : isBlank c = true) (left right : List Char) :
    words (left ++ c :: right) = words left ++ words right := by
  simp [words, List.splitOnP_append_cons left right h]

theorem words_nil : words [] = [] := by
  simp [words]

theorem words_cons {c : Char} (h : isBlank c = true) (text : List Char) :
    words (c :: text) = words text := by
  simpa [words_nil] using words_append_cons h [] text

theorem words_concat {c : Char} (h : isBlank c = true) (text : List Char) :
    words (text ++ [c]) = words text := by
  simpa [words_nil] using words_append_cons h text []

/-! ## Words with blanks between them -/

/-- There are characters, and none of them is blank. -/
structure IsWord (word : List Char) : Prop where
  ne_nil : word ≠ []
  visible : ∀ c ∈ word, isBlank c = false

variable {list : List (List Char)}

theorem words_intercalate (h : ∀ word ∈ list, IsWord word) :
    words ([' '].intercalate list) = list := by
  induction list with
  | nil => exact words_nil
  | cons word rest ih =>
    obtain ⟨hword, hrest⟩ := List.forall_mem_cons.mp h
    have hone : words word = [word] := words_eq_singleton hword.ne_nil hword.visible
    cases rest with
    | nil => rw [List.intercalate_singleton, hone]
    | cons next rest =>
      rw [List.intercalate_cons_cons, List.append_assoc, List.singleton_append,
        words_append_cons rfl, hone, ih hrest]
      rfl

theorem intercalate_append {separator : List Char} {left right : List (List Char)}
    (hleft : left ≠ []) (hright : right ≠ []) :
    separator.intercalate (left ++ right) =
      separator.intercalate left ++ separator ++ separator.intercalate right := by
  induction left with
  | nil => exact absurd rfl hleft
  | cons word rest ih =>
    cases rest with
    | nil => rw [List.singleton_append, List.intercalate_cons_of_ne_nil hright,
        List.intercalate_singleton]
    | cons next rest =>
      rw [List.cons_append, List.intercalate_cons_of_ne_nil (List.append_ne_nil_of_right_ne_nil _ hright),
        ih (List.cons_ne_nil _ _), List.intercalate_cons_cons]
      simp only [List.append_assoc]

theorem mem_intercalate {separator : List Char} {c : Char} (h : c ∈ separator.intercalate list) :
    c ∈ separator ∨ ∃ word ∈ list, c ∈ word := by
  induction list with
  | nil => cases h
  | cons word rest ih =>
    cases rest with
    | nil => exact Or.inr ⟨word, List.mem_cons_self, by simpa using h⟩
    | cons next rest =>
      rw [List.intercalate_cons_cons, List.append_assoc, List.mem_append, List.mem_append] at h
      rcases h with h | h | h
      · exact Or.inr ⟨word, List.mem_cons_self, h⟩
      · exact Or.inl h
      · exact (ih h).imp_right fun ⟨w, hw, hc⟩ => ⟨w, List.mem_cons_of_mem _ hw, hc⟩

theorem dropWhile_eq_self {text : List Char} (h : ∀ c, text.head? = some c → isBlank c = false) :
    text.dropWhile isBlank = text := by
  cases text with
  | nil => rfl
  | cons c rest => rw [List.dropWhile_cons, h c rfl, if_neg Bool.false_ne_true]

theorem trim_eq_self {text : List Char} (hhead : ∀ c, text.head? = some c → isBlank c = false)
    (hlast : ∀ c, text.getLast? = some c → isBlank c = false) : trim text = text := by
  rw [trim, dropWhile_eq_self hhead, dropWhile_eq_self, List.reverse_reverse]
  rwa [List.head?_reverse]

theorem trim_intercalate (h : ∀ word ∈ list, IsWord word) :
    trim ([' '].intercalate list) = [' '].intercalate list := by
  refine trim_eq_self (fun c hc => ?_) (fun c hc => ?_)
  · cases list with
    | nil => cases hc
    | cons word rest =>
      -- the text begins with the first word
      obtain ⟨back, hback⟩ : ∃ back, [' '].intercalate (word :: rest) = word ++ back := by
        cases rest with
        | nil => exact ⟨[], by simp⟩
        | cons next rest => exact ⟨_, by rw [List.intercalate_cons_cons, List.append_assoc]⟩
      have hword := h word List.mem_cons_self
      obtain ⟨d, tail, rfl⟩ := List.exists_cons_of_ne_nil hword.ne_nil
      rw [hback] at hc
      cases hc
      exact hword.visible c List.mem_cons_self
  · rcases List.eq_nil_or_concat list with rfl | ⟨rest, word, rfl⟩
    · cases hc
    · -- the text ends with the last word
      rw [List.concat_eq_append] at h hc
      obtain ⟨front, hfront⟩ : ∃ front, [' '].intercalate (rest ++ [word]) = front ++ word := by
        by_cases hrest : rest = []
        · exact ⟨[], by simp [hrest]⟩
        · exact ⟨_, by rw [intercalate_append hrest (List.cons_ne_nil _ _),
            List.intercalate_singleton]⟩
      have hword := h word (List.mem_append_right _ List.mem_cons_self)
      rw [hfront, List.getLast?_append, List.getLast?_eq_some_getLast hword.ne_nil] at hc
      cases hc
      exact hword.visible _ (List.getLast_mem _)

end Text

end RegularSets
