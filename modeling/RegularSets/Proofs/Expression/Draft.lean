import RegularSets.Expression.Draft

/-!
# Reading with priorities

An expression with all dots is read into a draft of its own structure (`read_of_derives`). While a part
of it is read, the draft is a right side of binary operators that wait for their right operand
(`plug`), with the part at the end. New operators pass the waiting ones, whose priority is no higher,
and stop at the part, which binds tighter than the operators that may follow it (`Binds`): what the
grammar says by its categories the reader says by priorities. A closed group binds tightest because its
priorities are raised.
-/

namespace RegularSets.Draft

variable {d x : Draft} {k : Connective} {p n : Nat} {l r : Draft} {op : Operator} {e : Expression}
  {text rest : List Char} {category : Category}

/-! ## The expression of a draft -/

/-- The structure of a draft without holes. -/
def expression? : Draft → Option Expression
  | hole => none
  | atom a => some (.atom a)
  | modify m _ d => d.expression?.map (.modify m)
  | join k _ l r => l.expression?.bind fun e => r.expression?.map (.join k e)

theorem expression?_join {f : Expression} (hl : l.expression? = some e)
    (hr : r.expression? = some f) : (join k p l r).expression? = some (.join k e f) := by
  rw [expression?, hl, hr]
  rfl

theorem isComplete_of_expression? (h : d.expression? = some e) : d.isComplete = true := by
  induction d generalizing e with
  | hole => cases h
  | atom a => rfl
  | modify m p d ih =>
    obtain ⟨f, hf, -⟩ := Option.map_eq_some_iff.mp h
    exact ih hf
  | join k p l r ihl ihr =>
    obtain ⟨f, hf, hmap⟩ := Option.bind_eq_some_iff.mp h
    obtain ⟨g, hg, -⟩ := Option.map_eq_some_iff.mp hmap
    rw [isComplete, ihl hf, ihr hg]
    rfl

theorem exists_expression?_eq (h : d.isComplete = true) : ∃ e, d.expression? = some e := by
  induction d with
  | hole => cases h
  | atom a => exact ⟨_, rfl⟩
  | modify m p d ih =>
    obtain ⟨f, hf⟩ := ih h
    exact ⟨.modify m f, by rw [expression?, hf]; rfl⟩
  | join k p l r ihl ihr =>
    obtain ⟨hl, hr⟩ := Bool.and_eq_true_iff.mp h
    obtain ⟨f, hf⟩ := ihl hl
    obtain ⟨g, hg⟩ := ihr hr
    exact ⟨_, expression?_join hf hg⟩

theorem isComplete_raise (amount : Nat) : (d.raise amount).isComplete = d.isComplete := by
  induction d with
  | hole => rfl
  | atom a => rfl
  | modify m p d ih => exact ih
  | join k p l r ihl ihr => rw [raise, isComplete, isComplete, ihl, ihr]

theorem ne_hole_of_expression? (h : d.expression? = some e) : d ≠ hole := by
  intro heq
  rw [heq] at h
  cases h

@[simp]
theorem expression?_raise (amount : Nat) : (d.raise amount).expression? = d.expression? := by
  induction d with
  | hole => rfl
  | atom a => rfl
  | modify m p d ih => simp only [raise, expression?, ih]
  | join k p l r ihl ihr => simp only [raise, expression?, ihl, ihr]

/-- A draft with an expression becomes a tree with the same one. -/
theorem toTree?_of_expression? (h : d.expression? = some e) (number position : Nat) :
    ∃ t, d.toTree? number position = some t ∧ t.expression = e := by
  induction d generalizing e number position with
  | hole => cases h
  | atom a =>
    cases h
    exact ⟨_, rfl, rfl⟩
  | modify m p d ih =>
    obtain ⟨f, hf, rfl⟩ := Option.map_eq_some_iff.mp h
    obtain ⟨t, ht, rfl⟩ := ih hf (number + 1) position
    exact ⟨_, by rw [toTree?, ht]; rfl, rfl⟩
  | join k p l r ihl ihr =>
    obtain ⟨f, hf, hmap⟩ := Option.bind_eq_some_iff.mp h
    obtain ⟨g, hg, rfl⟩ := Option.map_eq_some_iff.mp hmap
    obtain ⟨t, ht, rfl⟩ := ihl hf (number + 1) position
    obtain ⟨u, hu, rfl⟩ := ihr hg (number + 1 + l.size) (position + l.numAtoms)
    exact ⟨_, by rw [toTree?, ht, hu]; rfl, rfl⟩

/-! ## Operators that wait for their right operand -/

/-- A binary operator with its left operand. -/
structure Pending where
  connective : Connective
  priority : Nat
  left : Draft

/-- A draft at the right end of waiting operators, the outermost first. -/
def plug : List Pending → Draft → Draft
  | [], d => d
  | w :: waiting, d => join w.connective w.priority w.left (plug waiting d)

variable {waiting : List Pending}

theorem plug_append (w : Pending) :
    plug (waiting ++ [w]) d = plug waiting (join w.connective w.priority w.left d) := by
  induction waiting with
  | nil => rfl
  | cons v waiting ih => exact congrArg (join v.connective v.priority v.left) ih

theorem insert_plug : insert x (plug waiting hole) = .ok (plug waiting x) := by
  induction waiting with
  | nil => rfl
  | cons w waiting ih =>
    rw [plug, insert, ih]
    rfl

theorem plug_ne_hole (h : d ≠ hole) : plug waiting d ≠ hole := by
  cases waiting with
  | nil => exact h
  | cons w waiting => exact nofun

/-- With both operands an operator is taken over or passed by. -/
theorem insertOperator_join (hr : r ≠ hole) : (join k p l r).insertOperator op =
    if op.precedence < p then .ok (ofOperator op (join k p l r))
    else r.insertOperator op >>= fun x => .ok (join k p l x) := by
  cases r with
  | hole => exact absurd rfl hr
  | atom a => rfl
  | modify m p d => rfl
  | join k p l r => rfl

/-- New operators pass the waiting ones of no higher priority. -/
theorem insertOperator_plug (hwaiting : ∀ w ∈ waiting, w.priority ≤ op.precedence) (hd : d ≠ hole)
    (h : d.insertOperator op = .ok x) : (plug waiting d).insertOperator op = .ok (plug waiting x) := by
  induction waiting with
  | nil => exact h
  | cons w waiting ih =>
    have hle := hwaiting w List.mem_cons_self
    rw [plug, insertOperator_join (plug_ne_hole hd), if_neg (Nat.not_lt.mpr hle),
      ih fun v hv => hwaiting v (List.mem_cons_of_mem w hv)]
    rfl

/-! ## Binding -/

/-- The draft becomes the left operand of every new operator of lower precedence. -/
def Binds (d : Draft) (n : Nat) : Prop :=
  ∀ op : Operator, op.precedence < n → d.insertOperator op = .ok (ofOperator op d)

theorem binds_atom (a : Atom) (n : Nat) : (atom a).Binds n :=
  fun _ _ => rfl

theorem binds_modify (m : Modifier) : (modify m p d).Binds p :=
  fun _ hop => if_pos hop

theorem binds_join (hr : r ≠ hole) : (join k p l r).Binds p := by
  intro op hop
  rw [insertOperator_join hr, if_pos hop]

theorem Binds.mono {n' : Nat} (h : d.Binds n) (hle : n' ≤ n) : d.Binds n' :=
  fun op hop => h op (Nat.lt_of_lt_of_le hop hle)

/-- A closed group is the left operand of whatever follows it. -/
theorem binds_raise (h : d.expression? = some e) : (d.raise groupBoost).Binds groupBoost := by
  cases d with
  | hole => cases h
  | atom a => exact binds_atom a _
  | modify m p d => exact (binds_modify m).mono (Nat.le_add_left _ _)
  | join k p l r =>
    obtain ⟨f, hf, hmap⟩ := Option.bind_eq_some_iff.mp h
    obtain ⟨g, hg, -⟩ := Option.map_eq_some_iff.mp hmap
    have hr : r.raise groupBoost ≠ hole :=
      ne_hole_of_expression? ((expression?_raise groupBoost).trans hg)
    exact (binds_join hr).mono (Nat.le_add_left _ _)

/-! ## Reading a part of an expression -/

/-- What a part of each category binds tighter than: any operator, any binary one, alternation. -/
def strength : Category → Nat
  | .base => 4
  | .factor => 3
  | .term => 2
  | .expression => 1

/-- The highest priority of the operators that wait for a part of each category. -/
def reach : Category → Nat
  | .expression => 1
  | _ => 2

/-- Behind operators that wait, the text is read into a draft of the expression. -/
def Reads (category : Category) (text : List Char) (e : Expression) : Prop :=
  ∃ d : Draft, d.expression? = some e ∧ d.Binds (strength category) ∧
    ∀ waiting : List Pending, (∀ w ∈ waiting, w.priority ≤ reach category) → ∀ rest outer,
      readOn (text ++ rest) (plug waiting hole) outer = readOn rest (plug waiting d) outer

/-- Tighter categories may stand where looser ones are expected. -/
theorem Reads.loosen {category' : Category} (h : Reads category text e)
    (hstrength : strength category' ≤ strength category) (hreach : reach category' ≤ reach category) :
    Reads category' text e := by
  obtain ⟨d, hd, hbinds, hread⟩ := h
  exact ⟨d, hd, hbinds.mono hstrength, fun waiting hw =>
    hread waiting fun w hmem => Nat.le_trans (hw w hmem) hreach⟩

theorem readOn_atom {c : Char} {a : Atom} (hopen : c ≠ openSign) (hclose : c ≠ closeSign)
    (hc : Symbol.ofSign? c = some (.atom a)) (outer : List Draft) :
    readOn (c :: rest) (plug waiting hole) outer = readOn rest (plug waiting (atom a)) outer := by
  rw [readOn.eq_def]
  simp only [if_neg hopen, if_neg hclose, hc, push, insert_plug]
  rfl

theorem reads_atom {c : Char} {a : Atom} (hopen : c ≠ openSign) (hclose : c ≠ closeSign)
    (hc : Symbol.ofSign? c = some (.atom a)) : Reads .base [c] (.atom a) :=
  ⟨atom a, rfl, binds_atom a _, fun _ _ _ outer => readOn_atom hopen hclose hc outer⟩

theorem reads_terminal {c : Char} (h : isTerminal c = true) :
    Reads .base [c] (.atom (.terminal c)) := by
  have hclass := h
  simp only [isTerminal, Bool.and_eq_true, Bool.not_eq_true', isParenthesis, Bool.or_eq_false_iff,
    decide_eq_false_iff_not] at hclass
  obtain ⟨⟨⟨-, hempty⟩, hop⟩, hopen, hclose⟩ := hclass
  refine reads_atom hopen hclose ?_
  rw [isOperator, Option.isSome_eq_false_iff, Option.isNone_iff_eq_none] at hop
  rw [Symbol.ofSign?, hop]
  simp only [hempty, h, if_false, if_true]

theorem Reads.group (h : Reads .expression text e) :
    Reads .base (openSign :: text ++ [closeSign]) e := by
  obtain ⟨d, hd, -, hread⟩ := h
  refine ⟨d.raise groupBoost, (expression?_raise _).trans hd, (binds_raise hd).mono (by decide),
    fun waiting _ rest outer => ?_⟩
  have hinner := hread [] (by simp) (closeSign :: rest) (plug waiting hole :: outer)
  have hclose : closeSign ≠ openSign := by decide
  rw [List.cons_append, List.cons_append, readOn.eq_def, List.append_assoc, List.singleton_append]
  simp only [if_true]
  refine hinner.trans ?_
  rw [plug, readOn.eq_def]
  simp only [if_neg hclose, if_true, isComplete_of_expression? hd, insert_plug]
  rfl

/-- An operator that takes a part as its left operand. -/
theorem readOn_operator {op : Operator} (hd : d.expression? = some e) (hbinds : d.Binds n)
    (hop : op.precedence < n) (hwaiting : ∀ w ∈ waiting, w.priority ≤ op.precedence)
    (outer : List Draft) : readOn (op.sign :: rest) (plug waiting d) outer =
      readOn rest (plug waiting (ofOperator op d)) outer := by
  have hparenthesis : op.sign ≠ openSign ∧ op.sign ≠ closeSign := by
    rcases op with k | m
    · cases k <;> decide
    · cases m <;> decide
  have hsymbol : Symbol.ofSign? op.sign = some (.operator op) := by
    rw [Symbol.ofSign?, Operator.ofSign?_sign]
  have hinsert := insertOperator_plug hwaiting (ne_hole_of_expression? hd) (hbinds op hop)
  rw [readOn.eq_def]
  simp only [if_neg hparenthesis.1, if_neg hparenthesis.2, hsymbol, push, hinsert]
  rfl

theorem Reads.modified (h : Reads .base text e) (m : Modifier) :
    Reads .factor (text ++ [m.sign]) (.modify m e) := by
  obtain ⟨d, hd, hbinds, hread⟩ := h
  refine ⟨modify m m.precedence d, by rw [expression?, hd]; rfl, binds_modify m,
    fun waiting hw rest outer => ?_⟩
  rw [List.append_assoc, List.singleton_append, hread waiting hw]
  have hlt : (Operator.modifier m).precedence < strength .base := Nat.lt_succ_self 3
  have hle : reach .factor ≤ (Operator.modifier m).precedence := Nat.le_succ 2
  exact readOn_operator (d := d) hd hbinds hlt (fun w hmem => Nat.le_trans (hw w hmem) hle) outer

/-- A binary operator between a part that binds tighter and one that binds at least as tight. -/
theorem Reads.joined {left right : Category} {u v : List Char} {f : Expression}
    (hl : Reads left u e) (hr : Reads right v f) (hstrength : k.precedence < strength left)
    (hreach : k.precedence ≤ reach left) (hright : reach right = k.precedence) :
    ∃ d : Draft, d.expression? = some (.join k e f) ∧ d.Binds k.precedence ∧
      ∀ waiting : List Pending, (∀ w ∈ waiting, w.priority ≤ k.precedence) → ∀ rest outer,
        readOn (u ++ k.sign :: v ++ rest) (plug waiting hole) outer =
          readOn rest (plug waiting d) outer := by
  obtain ⟨l, hle, hlbinds, hlread⟩ := hl
  obtain ⟨r, hre, -, hrread⟩ := hr
  refine ⟨join k k.precedence l r, expression?_join hle hre,
    binds_join (ne_hole_of_expression? hre), fun waiting hw rest outer => ?_⟩
  have hall : ∀ w ∈ waiting ++ [⟨k, k.precedence, l⟩], w.priority ≤ reach right := by
    intro w hmem
    rw [hright]
    rcases List.mem_append.mp hmem with hmem | hmem
    · exact hw w hmem
    · cases List.mem_singleton.mp hmem
      exact Nat.le_refl _
  rw [List.append_assoc, List.cons_append,
    hlread waiting fun w hmem => Nat.le_trans (hw w hmem) hreach]
  have hop : (Operator.connective k).precedence < strength left := hstrength
  refine (readOn_operator hle hlbinds hop hw outer).trans ?_
  have hjoin := hrread _ hall rest outer
  rwa [plug_append, plug_append] at hjoin

theorem reads_of_derives (h : Derives false category text e) : Reads category text e := by
  induction h with
  | terminal visible => exact reads_terminal visible
  | emptyWord => exact reads_atom (by decide) (by decide) rfl
  | group _ ih => exact ih.group
  | plain _ ih => exact ih.loosen (by decide) (by decide)
  | modified m _ ih => exact ih.modified m
  | single _ ih => exact ih.loosen (by decide) (by decide)
  | dotted _ _ ihl ihr => exact ihl.joined ihr (k := .concatenation) (by decide) (by decide) rfl
  | adjacent allowed => cases allowed
  | one _ ih => exact ih.loosen (by decide) (by decide)
  | barred _ _ ihl ihr => exact ihl.joined ihr (k := .alternation) (by decide) (by decide) rfl

/-- An expression with all dots is read into a draft of its structure. -/
theorem read_of_derives (h : Derives false .expression text e) :
    ∃ d, read text = .ok d ∧ d.expression? = some e := by
  obtain ⟨d, hd, -, hread⟩ := reads_of_derives h
  refine ⟨d, ?_, hd⟩
  have hall := hread [] (by simp) [] []
  rw [List.append_nil, plug, plug] at hall
  rw [read, hall, readOn.eq_def]
  simp [isComplete_of_expression? hd]

end RegularSets.Draft
