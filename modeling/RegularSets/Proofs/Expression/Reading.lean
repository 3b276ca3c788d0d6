import RegularSets.Proofs.Expression.Check
import RegularSets.Proofs.Expression.Normalize
import RegularSets.Proofs.Expression.Readback

/-!
# Only expressions are read

An expression with all dots is read into its tree (`Draft.read_of_derives`), and nothing else is read
(`ExpressionTree.read_iff_derives`).

For the second half the reader is followed along with the check and with the writing of dots. Backwards
from a draft that is complete in the end, an operand must have gone into an open place at the right end,
and an operator over a complete operand: any other place that stays open can never be filled. So while a
text is read with success, every draft is in a stage of the check (`InStage`), and the check and the
writing of dots go through what is still to be read (`Follows`, a step at a time in `ReadStep.follows`).
-/

namespace RegularSets

namespace Regex

variable {d : Nat} {stage : Stage} {rest : List Char} {c : Char}

/-- Writing the dots adds nothing to the text, except before its first operand if one has to come. -/
def Explicit : Stage → List Char → Prop
  | .expecting, rest => ∀ start, withDots start rest = lead start rest
  | _, rest => withDots false rest = rest

theorem explicit_of_ne_expecting (hstage : stage ≠ .expecting) (h : withDots false rest = rest) :
    Explicit stage rest := by
  cases stage with
  | expecting => exact absurd rfl hstage
  | operand => exact h
  | modified => exact h

/-- The rest of a text has no fault, and all its concatenations are written. -/
structure Continues (d : Nat) (stage : Stage) (rest : List Char) : Prop where
  check : check d stage rest = .ok ()
  explicit : Explicit stage rest

namespace Continues

theorem nil (hstage : stage ≠ .expecting) : Continues 0 stage [] where
  check := by rw [Regex.check, if_neg (Nat.lt_irrefl 0), if_neg hstage]
  explicit := explicit_of_ne_expecting hstage rfl

theorem operand (hc : isTerminalOrEmptyWord c = true) (h : Continues d .operand rest) :
    Continues d .expecting (c :: rest) where
  check := (check_operand hc).trans h.check
  explicit start := by
    have hrest : withDots false rest = rest := h.explicit
    simp only [isTerminalOrEmptyWord, Bool.or_eq_true, decide_eq_true_eq] at hc
    rcases hc with rfl | hc
    · rw [withDots_operand (by decide) (by decide), hrest]
    · rw [withDots_terminal hc, hrest]

theorem opened (h : Continues (d + 1) .expecting rest) :
    Continues d .expecting (openSign :: rest) where
  check := check_open.trans h.check
  explicit start := by
    rw [withDots_open, h.explicit]
    rfl

theorem closed (hstage : stage ≠ .expecting) (h : Continues d .operand rest) :
    Continues (d + 1) stage (closeSign :: rest) where
  check := (check_close hstage).trans h.check
  explicit := explicit_of_ne_expecting hstage (withDots_close.trans (congrArg _ h.explicit))

theorem modifier (m : Modifier) (h : Continues d .modified rest) :
    Continues d .operand (m.sign :: rest) where
  check := (check_modifier m).trans h.check
  explicit := (withDots_modifier m).trans (congrArg _ h.explicit)

theorem connective (k : Connective) (hstage : stage ≠ .expecting)
    (h : Continues d .expecting rest) : Continues d stage (k.sign :: rest) where
  check := (check_connective k hstage).trans h.check
  explicit := by
    refine explicit_of_ne_expecting hstage ?_
    cases k with
    | concatenation => exact withDots_dot.trans (h.explicit false)
    | alternation => exact withDots_bar.trans (congrArg _ (h.explicit true))

end Continues

end Regex

namespace Draft

variable {d x y l r : Draft} {k : Connective} {p : Nat} {op : Operator} {stage : Regex.Stage}
  {rest text : List Char} {c : Char} {outer outer' : List Draft}

/-! ## Stages of drafts -/

/-- The stage after a draft with an operator of priority `p` at the top, given the stage at its right
end: a priority above that of modifiers is one of a closed group, which a modifier may follow even if
the group ends in one. -/
def enclosed (p : Nat) : Regex.Stage → Regex.Stage
  | .modified => if 3 < p then .operand else .modified
  | stage => stage

/-- The stage of the check after the text of a draft. A draft is in no stage if an operand is missing
anywhere but at the right end. -/
inductive InStage : Draft → Regex.Stage → Prop
  | hole : InStage hole .expecting
  | atom (a : Atom) : InStage (atom a) .operand
  | modify {m : Modifier} {p : Nat} {d : Draft} (operand : d.isComplete = true) :
      InStage (modify m p d) (enclosed p .modified)
  | join {k : Connective} {p : Nat} {l r : Draft} {stage : Regex.Stage}
      (left : l.isComplete = true) (right : InStage r stage) :
      InStage (join k p l r) (enclosed p stage)

theorem enclosed_ne_expecting (h : stage ≠ .expecting) : enclosed p stage ≠ .expecting := by
  cases stage with
  | expecting => exact h
  | operand => exact h
  | modified =>
    rw [enclosed]
    split <;> exact nofun

theorem enclosed_eq_operand (hp : 3 < p) (h : stage ≠ .expecting) : enclosed p stage = .operand := by
  cases stage with
  | expecting => exact absurd rfl h
  | operand => rfl
  | modified => exact if_pos hp

/-- A complete draft expects nothing. -/
theorem exists_inStage (h : d.isComplete = true) : ∃ stage, d.InStage stage ∧ stage ≠ .expecting := by
  induction d with
  | hole => cases h
  | atom a => exact ⟨_, .atom a, nofun⟩
  | modify m p d ih => exact ⟨_, .modify h, enclosed_ne_expecting nofun⟩
  | join k p l r ihl ihr =>
    rw [isComplete, Bool.and_eq_true] at h
    obtain ⟨stage, hr, hstage⟩ := ihr h.2
    exact ⟨_, .join h.1 hr, enclosed_ne_expecting hstage⟩

/-! ## Backwards through an insertion -/

/-- An operand went into the place at the right end. -/
theorem InStage.of_insert (hx : ∀ {stage}, x.InStage stage → stage = .operand)
    (h : insert x d = .ok y) (hy : y.InStage stage) : d.InStage .expecting ∧ stage = .operand := by
  induction d generalizing y stage with
  | hole =>
    cases h
    exact ⟨.hole, hx hy⟩
  | atom a => cases h
  | modify m p d ih => cases h
  | join k p l r ihl ihr =>
    obtain ⟨r', hins, heq⟩ := exists_of_bind_eq_ok h
    cases heq
    cases hy with
    | join left right =>
      obtain ⟨hexpecting, rfl⟩ := ihr hins right
      exact ⟨.join left hexpecting, rfl⟩

/-- The stage after an operator. -/
def stageAfter : Operator → Regex.Stage
  | .modifier _ => .modified
  | .connective _ => .expecting

theorem InStage.of_ofOperator (h : (ofOperator op d).InStage stage) :
    d.isComplete = true ∧ stage = stageAfter op := by
  cases op with
  | modifier m =>
    cases h with
    | modify operand => exact ⟨operand, rfl⟩
  | connective k =>
    cases h with
    | join left right =>
      cases right
      exact ⟨left, rfl⟩

theorem precedence_of_isModifier (h : op.isModifier = true) : op.precedence = 3 := by
  cases op with
  | connective k => cases h
  | modifier m => rfl

/-- An operator went over a complete operand, and a modifier not over another modifier. -/
theorem InStage.of_insertOperator (h : d.insertOperator op = .ok y) (hy : y.InStage stage) :
    stage = stageAfter op ∧ ∃ before, d.InStage before ∧ before ≠ .expecting ∧
      (op.isModifier = true → before = .operand) := by
  induction d generalizing y stage with
  | hole =>
    cases h
    cases hy.of_ofOperator.1
  | atom a =>
    cases h
    exact ⟨hy.of_ofOperator.2, _, .atom a, nofun, fun _ => rfl⟩
  | modify m p d ih =>
    rw [insertOperator] at h
    split at h
    · next hlt =>
      cases h
      obtain ⟨hd, rfl⟩ := hy.of_ofOperator
      exact ⟨rfl, _, .modify hd, enclosed_ne_expecting (by decide), fun hop =>
        enclosed_eq_operand (precedence_of_isModifier hop ▸ hlt) (by decide)⟩
    · cases h
  | join k p l r ihl ihr =>
    by_cases hr : r = Draft.hole
    · subst hr
      cases h
      cases hy with
      | join left right => cases right.of_ofOperator.1
    · rw [insertOperator_join hr] at h
      split at h
      · next hlt =>
        cases h
        obtain ⟨hd, rfl⟩ := hy.of_ofOperator
        rw [isComplete, Bool.and_eq_true] at hd
        obtain ⟨before, hbefore, hne⟩ := exists_inStage hd.2
        exact ⟨rfl, _, .join hd.1 hbefore, enclosed_ne_expecting hne, fun hop =>
          enclosed_eq_operand (precedence_of_isModifier hop ▸ hlt) hne⟩
      · next hle =>
        obtain ⟨r', hins, heq⟩ := exists_of_bind_eq_ok h
        cases heq
        cases hy with
        | join left right =>
          obtain ⟨rfl, before, hbefore, hne, hoperand⟩ := ihr hins right
          refine ⟨?_, _, .join left hbefore, enclosed_ne_expecting hne, fun hop => ?_⟩
          · cases op with
            | connective k => rfl
            | modifier m => exact if_neg hle
          · rw [hoperand hop]
            rfl

/-! ## Closed groups -/

theorem InStage.ne_expecting (h : d.InStage stage) (hd : d.isComplete = true) :
    stage ≠ .expecting := by
  induction h with
  | hole => cases hd
  | atom a => exact nofun
  | modify operand => exact enclosed_ne_expecting nofun
  | join left right ih =>
    rw [isComplete, Bool.and_eq_true] at hd
    exact enclosed_ne_expecting (ih hd.2)

/-- A closed group is an operand, also if it ends in a modifier. -/
theorem InStage.of_raise (hd : d.isComplete = true) (h : (d.raise groupBoost).InStage stage) :
    stage = .operand := by
  have hboost : ∀ p, 3 < p + groupBoost := fun p => Nat.lt_of_lt_of_le (by decide) (Nat.le_add_left _ p)
  cases d with
  | hole => cases hd
  | atom a =>
    cases h
    rfl
  | modify m p d =>
    cases h
    exact enclosed_eq_operand (hboost p) nofun
  | join k p l r =>
    cases h with
    | join left right =>
      rw [isComplete, Bool.and_eq_true] at hd
      exact enclosed_eq_operand (hboost p) (right.ne_expecting ((isComplete_raise _).trans hd.2))

/-! ## Following the reader -/

theorem isTerminalOrEmptyWord_of_ofSign? {c : Char} {a : Atom}
    (h : Symbol.ofSign? c = some (.atom a)) : isTerminalOrEmptyWord c = true := by
  unfold Symbol.ofSign? at h
  split at h
  · cases h
  · split at h
    · next hc => simp [isTerminalOrEmptyWord, hc]
    · split at h
      · next hc => simp [isTerminalOrEmptyWord, hc]
      · cases h

/-- One symbol is read with success. -/
inductive ReadStep : Char → Draft → List Draft → Draft → List Draft → Prop
  | opened {d : Draft} {outer : List Draft} : ReadStep openSign d outer hole (d :: outer)
  | closed {d around y : Draft} {outer : List Draft} (complete : d.isComplete = true)
      (inserted : insert (d.raise groupBoost) around = .ok y) :
      ReadStep closeSign d (around :: outer) y outer
  | operand {c : Char} {a : Atom} {d y : Draft} {outer : List Draft}
      (symbol : Symbol.ofSign? c = some (.atom a)) (inserted : insert (atom a) d = .ok y) :
      ReadStep c d outer y outer
  | operator {op : Operator} {d y : Draft} {outer : List Draft}
      (inserted : d.insertOperator op = .ok y) : ReadStep op.sign d outer y outer

/-- What is read is read symbol by symbol. -/
theorem exists_readStep (h : readOn (c :: rest) d outer = .ok x) :
    ∃ y outer', ReadStep c d outer y outer' ∧ readOn rest y outer' = .ok x := by
  rw [readOn.eq_def] at h
  simp only at h
  split at h
  · next hopen =>
    subst hopen
    exact ⟨hole, d :: outer, .opened, h⟩
  · split at h
    · next hclose =>
      subst hclose
      split at h
      · cases h
      · next around outer =>
        split at h
        · next hcomplete =>
          obtain ⟨y, hins, hread⟩ := exists_of_bind_eq_ok h
          exact ⟨y, outer, .closed hcomplete hins, hread⟩
        · cases h
    · split at h
      · cases h
      · next s hs =>
        obtain ⟨y, hins, hread⟩ := exists_of_bind_eq_ok h
        cases s with
        | atom a => exact ⟨y, outer, .operand hs hins, hread⟩
        | operator op =>
          have hsign : op.sign = c := Symbol.sign_of_ofSign? hs
          subst hsign
          exact ⟨y, outer, .operator hins, hread⟩

/-- A reading ends with a complete draft and no open group. -/
theorem eq_of_readOn_nil (h : readOn [] d outer = .ok x) :
    d.isComplete = true ∧ outer = [] ∧ x = d := by
  rw [readOn] at h
  split at h
  · cases h
  · next houter =>
    split at h
    · cases h
    · next hcomplete =>
      cases h
      exact ⟨by simpa using hcomplete, by simpa using houter, rfl⟩

/-- The drafts of all open groups wait for an operand, and the check and the writing of dots go through
the rest of the text from the stage of the present draft. -/
def Follows (d : Draft) (outer : List Draft) (rest : List Char) : Prop :=
  (∀ o ∈ outer, o.InStage .expecting) ∧
    ∃ stage, d.InStage stage ∧ Regex.Continues outer.length stage rest

theorem ReadStep.follows (h : ReadStep c d outer y outer') (hy : Follows y outer' rest) :
    Follows d outer (c :: rest) := by
  obtain ⟨houter, stage, hstage, hrest⟩ := hy
  cases h with
  | opened =>
    cases hstage
    exact ⟨fun o ho => houter o (List.mem_cons_of_mem d ho), _, houter d List.mem_cons_self,
      hrest.opened⟩
  | closed complete inserted =>
    obtain ⟨haround, rfl⟩ := hstage.of_insert (fun hx => hx.of_raise complete) inserted
    obtain ⟨stage, hd, hne⟩ := exists_inStage complete
    exact ⟨List.forall_mem_cons.mpr ⟨haround, houter⟩, stage, hd, hrest.closed hne⟩
  | @operand _ a _ _ _ symbol inserted =>
    have hatom : ∀ {stage}, (atom a).InStage stage → stage = .operand := by
      intro stage h
      cases h
      rfl
    obtain ⟨hd, rfl⟩ := hstage.of_insert hatom inserted
    exact ⟨houter, _, hd, hrest.operand (isTerminalOrEmptyWord_of_ofSign? symbol)⟩
  | @operator op _ _ _ inserted =>
    obtain ⟨rfl, before, hd, hne, hoperand⟩ := hstage.of_insertOperator inserted
    refine ⟨houter, before, hd, ?_⟩
    cases op with
    | modifier m =>
      rw [hoperand rfl]
      exact hrest.modifier m
    | connective k => exact hrest.connective k hne

theorem follows_of_readOn (h : readOn rest d outer = .ok x) : Follows d outer rest := by
  induction rest generalizing d outer with
  | nil =>
    obtain ⟨hcomplete, rfl, -⟩ := eq_of_readOn_nil h
    obtain ⟨stage, hd, hstage⟩ := exists_inStage hcomplete
    exact ⟨nofun, stage, hd, .nil hstage⟩
  | cons c rest ih =>
    obtain ⟨y, outer', hstep, hread⟩ := exists_readStep h
    exact hstep.follows (ih hread)

/-- A text that is read is an expression, and all its concatenations are written. -/
theorem exists_derives_of_read (h : read text = .ok d) : ∃ e, Derives false .expression text e := by
  obtain ⟨-, stage, hhole, hcontinues⟩ := follows_of_readOn h
  cases hhole
  obtain ⟨e, he⟩ := Regex.exists_derives_of_check hcontinues.check
  have hdots : Regex.withDots true text = text := hcontinues.explicit true
  exact ⟨e, hdots ▸ Regex.derives_withDots he⟩

end Draft

namespace ExpressionTree

variable {text : List Char} {e : Expression}

/-- An expression with all dots is read into a tree of its structure, numbered without gaps. -/
theorem exists_read_of_derives (h : Derives false .expression text e) :
    ∃ t, read text = .ok t ∧ t.root.Numbered 0 1 ∧ t.root.expression = e := by
  obtain ⟨d, hread, hd⟩ := Draft.read_of_derives h
  obtain ⟨root, hroot, hexpression⟩ := Draft.toTree?_of_expression? hd 0 1
  refine ⟨⟨text, root⟩, ?_, (Draft.numbered_of_toTree? hroot).1, hexpression⟩
  rw [read_eq, hread]
  simp only [hroot]

/-- A tree that was read is made of a complete draft, and keeps the text. -/
theorem exists_draft_of_read {t : ExpressionTree} (h : read text = .ok t) :
    ∃ d, Draft.read text = .ok d ∧ d.toTree? 0 1 = some t.root ∧ t.text = text := by
  rw [read_eq] at h
  split at h
  · cases h
  · next d hread =>
    split at h
    · cases h
    · next root hroot =>
      cases h
      exact ⟨d, hread, hroot, rfl⟩

theorem numbered_of_read {t : ExpressionTree} (h : read text = .ok t) : t.root.Numbered 0 1 := by
  obtain ⟨d, -, hroot, -⟩ := exists_draft_of_read h
  exact (Draft.numbered_of_toTree? hroot).1

theorem exists_derives_of_read {t : ExpressionTree} (h : read text = .ok t) :
    ∃ e, Derives false .expression text e := by
  cases hread : Draft.read text with
  | error cause =>
    rw [read_eq, hread] at h
    cases h
  | ok d => exact Draft.exists_derives_of_read hread

/-- **Reading.** Exactly the expressions with all dots are read, and a text is read into a tree of some
structure exactly if it is derived with that structure. -/
theorem read_iff_derives (text : List Char) :
    ((∃ t, read text = .ok t) ↔ ∃ e, Derives false .expression text e) ∧
      ∀ e, (∃ t, read text = .ok t ∧ t.root.expression = e) ↔ Derives false .expression text e := by
  refine ⟨⟨fun h => ?_, fun h => ?_⟩, fun e => ⟨fun h => ?_, fun he => ?_⟩⟩
  · obtain ⟨t, ht⟩ := h
    exact exists_derives_of_read ht
  · obtain ⟨e, he⟩ := h
    obtain ⟨t, ht, -⟩ := exists_read_of_derives he
    exact ⟨t, ht⟩
  · obtain ⟨t, ht, rfl⟩ := h
    obtain ⟨e, he⟩ := exists_derives_of_read ht
    obtain ⟨u, hu, -, rfl⟩ := exists_read_of_derives he
    cases ht.symm.trans hu
    exact he
  · obtain ⟨t, ht, -, hexpression⟩ := exists_read_of_derives he
    exact ⟨t, ht, hexpression⟩

/-- A closure over a closure and an alternative with the empty word, and an option after the group. -/
def closures : ExpressionTree where
  text := "((a|&).b*)+.c?".toList
  root := .join .concatenation 2 0
    (.modify .plus 3 1
      (.join .concatenation 12 2
        (.join .alternation 21 3 (.atom (.terminal 'a') 4 1) (.atom .emptyWord 5 2))
        (.modify .star 13 6 (.atom (.terminal 'b') 7 3))))
    (.modify .optional 3 8 (.atom (.terminal 'c') 9 4))

theorem read_closures : read closures.text = .ok closures := by
  decide

end ExpressionTree

end RegularSets
