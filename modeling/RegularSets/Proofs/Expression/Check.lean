import RegularSets.Expression.Regex
import RegularSets.Expression.Syntax

/-!
# Checked texts are the expressions

A text has no fault exactly if the grammar of written expressions derives it
(`validate_iff_exists_derives`).

The check reads from the left, the grammar builds from the right, so for a text without a fault the
invariant says what the unread rest is good for: it completes an expression once something that ends in
the present stage is put before it (`Awaits`). With groups open the rest closes them first, and whatever
is put in the place of a closed group is completed by what follows.

The other way round, the induction on a derivation leaves open what stands before the text and after it
(`Passes`): an operand may follow any symbol, so all that matters for what comes next is the stage in which
the text ends.
-/

namespace RegularSets.Regex

variable {d : Nat} {text rest u : List Char} {c : Char} {category : Category}

/-- The text is derived in a category, with whatever syntax. -/
def Derivable (category : Category) (text : List Char) : Prop :=
  ∃ e, Derives true category text e

theorem Derivable.group (h : Derivable .expression text) :
    Derivable .base (openSign :: text ++ [closeSign]) := by
  obtain ⟨e, he⟩ := h
  exact ⟨e, .group he⟩

theorem Derivable.plain (h : Derivable .base text) : Derivable .factor text := by
  obtain ⟨e, he⟩ := h
  exact ⟨e, .plain he⟩

theorem Derivable.modified (h : Derivable .base text) (m : Modifier) :
    Derivable .factor (text ++ [m.sign]) := by
  obtain ⟨e, he⟩ := h
  exact ⟨_, .modified m he⟩

theorem Derivable.alone (h : Derivable .factor text) : Derivable .expression text := by
  obtain ⟨e, he⟩ := h
  exact ⟨e, .one (.single he)⟩

/-- A factor before an expression, side by side with it. -/
theorem Derivable.adjacent (h : Derivable .factor u) (hrest : Derivable .expression text) :
    Derivable .expression (u ++ text) := by
  obtain ⟨e, he⟩ := h
  obtain ⟨f, hf⟩ := hrest
  cases hf with
  | one term => exact ⟨_, .one (.adjacent rfl he term)⟩
  | barred left right =>
    rw [← List.append_assoc]
    exact ⟨_, .barred (.adjacent rfl he left) right⟩

/-- A factor before an expression, with an operator between them. -/
theorem Derivable.connected (h : Derivable .factor u) (k : Connective)
    (hrest : Derivable .expression text) : Derivable .expression (u ++ k.sign :: text) := by
  obtain ⟨e, he⟩ := h
  obtain ⟨f, hf⟩ := hrest
  cases k with
  | alternation => exact ⟨_, .barred (.single he) hf⟩
  | concatenation =>
    cases hf with
    | one term => exact ⟨_, .one (.dotted he term)⟩
    | barred left right =>
      rw [← List.cons_append, ← List.append_assoc]
      exact ⟨_, .barred (.dotted he left) right⟩

/-! ## What the rest of a text completes -/

/-- The text closes `d` groups, the innermost after an expression, and what takes the place of each
closed group is completed by what follows. -/
def Completes : Nat → List Char → Prop
  | 0, text => Derivable .expression text
  | d + 1, text => ∃ inner rest, text = inner ++ closeSign :: rest ∧ Derivable .expression inner ∧
      ∀ group, Derivable .base group → Completes d (group ++ rest)

/-- What can be put before an expression can be put before one with open groups. -/
theorem Completes.prepend {before : List Char} (h : Completes d text)
    (hbefore : ∀ text, Derivable .expression text → Derivable .expression (before ++ text)) :
    Completes d (before ++ text) := by
  cases d with
  | zero => exact hbefore text h
  | succ d =>
    obtain ⟨inner, rest, rfl, hinner, hgroup⟩ := h
    exact ⟨before ++ inner, rest, by simp, hbefore inner hinner, hgroup⟩

theorem Completes.adjacent (hu : Derivable .factor u) (h : Completes d text) :
    Completes d (u ++ text) :=
  h.prepend fun _ => hu.adjacent

theorem Completes.connected (hu : Derivable .factor u) (k : Connective) (h : Completes d text) :
    Completes d (u ++ k.sign :: text) := by
  rw [show u ++ k.sign :: text = (u ++ [k.sign]) ++ text by simp]
  refine h.prepend fun text htext => ?_
  rw [show (u ++ [k.sign]) ++ text = u ++ k.sign :: text by simp]
  exact hu.connected k htext

/-- What the rest of a text is good for after each kind of symbol. -/
def Awaits (d : Nat) (rest : List Char) : Stage → Prop
  | .expecting => Completes d rest
  | .operand => ∀ u, Derivable .base u → Completes d (u ++ rest)
  | .modified => ∀ u, Derivable .factor u → Completes d (u ++ rest)

/-- The rest may begin with an operand after every symbol. -/
theorem Awaits.of_completes (h : Completes d rest) (stage : Stage) : Awaits d rest stage := by
  cases stage with
  | expecting => exact h
  | operand => exact fun _ hu => h.adjacent hu.plain
  | modified => exact fun _ hu => h.adjacent hu

/-- Apart from the start, what completes every factor will do. -/
theorem Awaits.of_factor {stage : Stage} (hstage : stage ≠ .expecting)
    (h : ∀ u, Derivable .factor u → Completes d (u ++ rest)) : Awaits d rest stage := by
  cases stage with
  | expecting => exact absurd rfl hstage
  | operand => exact fun u hu => h u hu.plain
  | modified => exact h

/-! ## The check -/

section Check

variable {stage : Stage}

theorem derivable_of_isTerminalOrEmptyWord (h : isTerminalOrEmptyWord c = true) :
    Derivable .base [c] := by
  simp only [isTerminalOrEmptyWord, Bool.or_eq_true, decide_eq_true_eq] at h
  rcases h with rfl | h
  · exact ⟨_, .emptyWord⟩
  · exact ⟨_, .terminal h⟩

theorem Awaits.nil (hstage : stage ≠ .expecting) : Awaits 0 [] stage :=
  .of_factor hstage fun u hu => by
    rw [List.append_nil]
    exact hu.alone

theorem Awaits.operand (hc : isTerminalOrEmptyWord c = true) (h : Awaits d rest .operand) :
    Awaits d (c :: rest) stage :=
  .of_completes (h [c] (derivable_of_isTerminalOrEmptyWord hc)) stage

theorem Awaits.opened (h : Awaits (d + 1) rest .expecting) : Awaits d (openSign :: rest) stage := by
  obtain ⟨inner, tail, rfl, hinner, hgroup⟩ := h
  refine .of_completes ?_ stage
  have hrest := hgroup _ hinner.group
  rwa [List.append_assoc, List.singleton_append] at hrest

theorem Awaits.closed (hstage : stage ≠ .expecting) (h : Awaits d rest .operand) :
    Awaits (d + 1) (closeSign :: rest) stage :=
  .of_factor hstage fun u hu => ⟨u, rest, rfl, hu.alone, h⟩

theorem Awaits.modifier (m : Modifier) (h : Awaits d rest .modified) :
    Awaits d (m.sign :: rest) .operand := by
  intro u hu
  have hrest := h _ (hu.modified m)
  rwa [List.append_assoc, List.singleton_append] at hrest

theorem Awaits.connective (k : Connective) (hstage : stage ≠ .expecting)
    (h : Awaits d rest .expecting) : Awaits d (k.sign :: rest) stage :=
  .of_factor hstage fun _ hu => h.connected hu k

theorem awaits_of_check (h : check d stage rest = .ok ()) : Awaits d rest stage := by
  induction rest generalizing d stage with
  | nil =>
    simp only [check] at h
    split at h
    · cases h
    · next hd =>
      split at h
      · cases h
      · next hstage =>
        rw [Nat.eq_zero_of_not_pos hd]
        exact .nil hstage
  | cons c rest ih =>
    unfold check at h
    split at h
    · next hc => exact .operand hc (ih h)
    · split at h
      · next hopen => exact hopen ▸ .opened (ih h)
      · split at h
        · next hclose =>
          split at h
          · cases h
          · next hd =>
            split at h
            · cases h
            · next hstage =>
              obtain ⟨d, rfl⟩ := Nat.exists_eq_succ_of_ne_zero hd
              exact hclose ▸ .closed hstage (ih h)
        · split at h
          · cases h
          · next m hop =>
            have hsign : m.sign = c := Operator.sign_of_ofSign? hop
            split at h
            · cases h
            · cases h
            · exact hsign ▸ .modifier m (ih h)
          · next k hop =>
            have hsign : k.sign = c := Operator.sign_of_ofSign? hop
            split at h
            · cases h
            · next hstage => exact hsign ▸ .connective k hstage (ih h)

end Check

/-- A text in which the check finds no fault is an expression. -/
theorem exists_derives_of_check (h : check 0 .expecting text = .ok ()) :
    ∃ e, Derives true .expression text e :=
  awaits_of_check h

theorem validate_iff_check {r : Regex} : r.validate = .ok () ↔ check 0 .expecting r.chars = .ok () := by
  rw [validate]
  split
  · next hempty =>
    rw [List.isEmpty_iff.mp hempty]
    exact iff_of_false nofun nofun
  · cases check 0 .expecting r.chars with
    | ok => exact iff_of_true rfl rfl
    | error cause => exact iff_of_false nofun nofun

theorem exists_derives_of_validate {r : Regex} (h : r.validate = .ok ()) :
    ∃ e, Derives true .expression r.chars e :=
  exists_derives_of_check (validate_iff_check.mp h)

/-! ## Symbol by symbol -/

section Symbols

variable {stage : Stage}

theorem check_operand (hc : isTerminalOrEmptyWord c = true) :
    check d stage (c :: rest) = check d .operand rest := by
  rw [check.eq_def]
  simp only [hc, if_true]

theorem check_open : check d stage (openSign :: rest) = check (d + 1) .expecting rest := by
  have hoperand : isTerminalOrEmptyWord openSign = false := by decide
  rw [check.eq_def]
  simp only [hoperand, if_true, Bool.false_eq_true, if_false]

theorem check_close (hstage : stage ≠ .expecting) :
    check (d + 1) stage (closeSign :: rest) = check d .operand rest := by
  have hoperand : isTerminalOrEmptyWord closeSign = false := by decide
  have hopen : closeSign ≠ openSign := by decide
  rw [check.eq_def]
  simp only [hoperand, Bool.false_eq_true, if_false, hopen, if_true, Nat.succ_ne_zero, hstage,
    Nat.add_sub_cancel]

theorem check_modifier (m : Modifier) :
    check d .operand (m.sign :: rest) = check d .modified rest := by
  have hoperand : isTerminalOrEmptyWord m.sign = false := by cases m <;> decide
  have hopen : m.sign ≠ openSign := by cases m <;> decide
  have hclose : m.sign ≠ closeSign := by cases m <;> decide
  have hsign : Operator.ofSign? m.sign = some (.modifier m) := Operator.ofSign?_sign (.modifier m)
  rw [check.eq_def]
  simp only [hoperand, Bool.false_eq_true, if_false, hopen, hclose, hsign]

theorem check_connective (k : Connective) (hstage : stage ≠ .expecting) :
    check d stage (k.sign :: rest) = check d .expecting rest := by
  have hoperand : isTerminalOrEmptyWord k.sign = false := by cases k <;> decide
  have hopen : k.sign ≠ openSign := by cases k <;> decide
  have hclose : k.sign ≠ closeSign := by cases k <;> decide
  have hsign : Operator.ofSign? k.sign = some (.connective k) := Operator.ofSign?_sign (.connective k)
  rw [check.eq_def]
  simp only [hoperand, Bool.false_eq_true, if_false, hopen, hclose, hsign, hstage]

end Symbols

/-! ## Expressions pass -/

/-- Whatever stands before the text, the check comes through it and goes on at the stage. -/
def Passes (text : List Char) (stage : Stage) : Prop :=
  ∀ d before rest, check d before (text ++ rest) = check d stage rest

theorem Passes.group {stage : Stage} (h : Passes text stage) (hstage : stage ≠ .expecting) :
    Passes (openSign :: text ++ [closeSign]) .operand := by
  intro d before rest
  rw [List.cons_append, List.cons_append, List.append_assoc, check_open, h]
  exact check_close hstage

theorem Passes.connected {v : List Char} {stage stage' : Stage} (hu : Passes u stage)
    (k : Connective) (hstage : stage ≠ .expecting) (hv : Passes v stage') :
    Passes (u ++ k.sign :: v) stage' := by
  intro d before rest
  rw [List.append_assoc, hu, List.cons_append, check_connective k hstage, hv]

/-- After an expression an operator may come, and after an operand also a modifier. -/
theorem exists_passes {e : Expression} (h : Derives true category text e) :
    ∃ stage, Passes text stage ∧ stage ≠ .expecting ∧ (category = .base → stage = .operand) := by
  induction h with
  | @terminal c visible =>
    have hc : isTerminalOrEmptyWord c = true := by
      rw [isTerminalOrEmptyWord, visible, Bool.or_true]
    exact ⟨.operand, fun d before rest => check_operand hc, nofun, fun _ => rfl⟩
  | emptyWord => exact ⟨.operand, fun d before rest => check_operand (by decide), nofun, fun _ => rfl⟩
  | group _ ih =>
    obtain ⟨stage, hpasses, hstage, -⟩ := ih
    exact ⟨.operand, hpasses.group hstage, nofun, fun _ => rfl⟩
  | plain _ ih =>
    obtain ⟨stage, hpasses, hstage, -⟩ := ih
    exact ⟨stage, hpasses, hstage, nofun⟩
  | modified m _ ih =>
    obtain ⟨stage, hpasses, -, hbase⟩ := ih
    refine ⟨.modified, fun d before rest => ?_, nofun, nofun⟩
    rw [List.append_assoc, hpasses, hbase rfl]
    exact check_modifier m
  | single _ ih =>
    obtain ⟨stage, hpasses, hstage, -⟩ := ih
    exact ⟨stage, hpasses, hstage, nofun⟩
  | dotted _ _ ihl ihr =>
    obtain ⟨left, hleft, hstage, -⟩ := ihl
    obtain ⟨right, hright, hstage', -⟩ := ihr
    exact ⟨right, hleft.connected .concatenation hstage hright, hstage', nofun⟩
  | adjacent _ _ _ ihl ihr =>
    obtain ⟨left, hleft, -, -⟩ := ihl
    obtain ⟨right, hright, hstage, -⟩ := ihr
    refine ⟨right, fun d before rest => ?_, hstage, nofun⟩
    rw [List.append_assoc, hleft, hright]
  | one _ ih =>
    obtain ⟨stage, hpasses, hstage, -⟩ := ih
    exact ⟨stage, hpasses, hstage, nofun⟩
  | barred _ _ ihl ihr =>
    obtain ⟨left, hleft, hstage, -⟩ := ihl
    obtain ⟨right, hright, hstage', -⟩ := ihr
    exact ⟨right, hleft.connected .alternation hstage hright, hstage', nofun⟩

theorem check_of_derives {e : Expression} (h : Derives true .expression text e) :
    check 0 .expecting text = .ok () := by
  obtain ⟨stage, hpasses, hstage, -⟩ := exists_passes h
  have hall := hpasses 0 .expecting []
  rw [List.append_nil] at hall
  rw [hall, check, if_neg (Nat.lt_irrefl 0), if_neg hstage]

/-- **Checking.** A text has no fault exactly if it is derived as an expression once its blanks are
dropped. -/
theorem validate_iff_exists_derives (text : String) : (ofString text).validate = .ok () ↔
    ∃ e, Derives true .expression (text.toList.filter fun c => !isBlank c) e := by
  refine validate_iff_check.trans ⟨exists_derives_of_check, fun h => ?_⟩
  obtain ⟨e, he⟩ := h
  exact check_of_derives he

end RegularSets.Regex
