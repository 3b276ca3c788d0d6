import RegularSets.Proofs.Expression.Layout

/-!
# Growing a tree in an arena

Reading changes a tree at its right side only: somewhere on the way right from the root a part of the tree
is replaced by a larger one. `Regrown` says that a part has been replaced by another, which has all the
nodes of the old one and is drawn where the old one was, and that nothing else has changed but the
reference of the node above. What is regrown on the right of an operator makes the operator regrown
(`Regrown.join`), so it is enough to know of each push what it does where it ends: it fills an empty node,
adds a right child, wraps a node, or takes in another tree.
-/

namespace RegularSets

namespace Layout

/-- An operator with its left operand, as it is when it has just been put there. -/
def ofOperator (id : Nat) (op : Operator) (operand : Layout) : Layout :=
  match op with
  | .connective k => .join id k k.precedence operand .hole
  | .modifier m => .modify id m m.precedence operand

/-- The layout with another node at its root. -/
def withRoot (id : Nat) : Layout → Layout
  | hole => hole
  | empty _ => empty id
  | atom _ x => atom id x
  | modify _ m p d => modify id m p d
  | join _ k p l r => join id k p l r

theorem draft_withRoot {L : Layout} {id : Nat} : (L.withRoot id).draft = L.draft := by
  cases L <;> rfl

theorem root?_withRoot {L : Layout} {id : Nat} (h : L.root?.isSome = true) :
    (L.withRoot id).root? = some id := by
  cases L with
  | hole => cases h
  | _ => rfl

theorem ids_withRoot {L : Layout} {id : Nat} (h : L.root?.isSome = true) :
    (L.withRoot id).ids = id :: L.ids.tail := by
  cases L with
  | hole => cases h
  | _ => rfl

theorem draft_ofOperator {L : Layout} {id : Nat} (op : Operator) :
    (ofOperator id op L).draft = Draft.ofOperator op L.draft := by
  cases op <;> rfl

theorem ids_ofOperator {L : Layout} {id : Nat} (op : Operator) : (ofOperator id op L).ids = id :: L.ids := by
  cases op with
  | connective k => exact congrArg (id :: ·) (List.append_nil _)
  | modifier m => rfl

theorem root?_ofOperator {L : Layout} {id : Nat} (op : Operator) : (ofOperator id op L).root? = some id := by
  cases op <;> rfl

end Layout

namespace Arena

variable {a a' b : Arena} {L L' S l r r' : Layout} {parent : Option Nat} {extra : List Nat}
  {id i p sub priority : Nat} {f : Node → Node} {k : Connective} {op : Operator} {x : Atom}

/-- A part of a tree that is the right child of the node above it, if there is one. The nodes of `extra`
are elsewhere in the arena. -/
structure Spot (a : Arena) (parent : Option Nat) (extra : List Nat) (L : Layout) : Prop where
  sketched : a.Sketches parent L
  nodup : L.ids.Nodup
  apart : ∀ i ∈ extra, i ∉ L.ids
  above : ∀ p, parent = some p → p < a.size ∧ p ∉ L.ids ∧ p ∉ extra ∧ (a.node p).right = L.root? ∧
    ∀ i, L.root? = some i → (a.node p).left ≠ some i

/-- The part of the tree has been replaced by another one. It has its old nodes, nodes of `extra` and new
ones, and nothing else changed but the right child of the node above. -/
structure Regrown (a a' : Arena) (parent : Option Nat) (extra : List Nat) (L L' : Layout) : Prop where
  sketched : a'.Sketches parent L'
  nodup : L'.ids.Nodup
  size_le : a.size ≤ a'.size
  kept : ∀ i ∈ L.ids, i ∈ L'.ids
  origin : ∀ i ∈ L'.ids, i ∈ L.ids ∨ i ∈ extra ∨ a.size ≤ i
  frame : ∀ i < a.size, i ∉ L.ids → i ∉ extra → parent ≠ some i → a'.node i = a.node i
  above : ∀ p, parent = some p → a'.node p = { a.node p with right := L'.root? }

/-! ## On the right of an operator -/

theorem Spot.right (h : Spot a parent extra (.join id k priority l r)) : Spot a (some id) extra r := by
  obtain ⟨⟨-, hid⟩, -, hr, hdisjoint⟩ := Layout.nodup_join.mp h.nodup
  refine ⟨h.sketched.2.2, hr, fun i hi hmem => ?_, fun p hp => ?_⟩
  · exact h.apart i hi (List.mem_cons_of_mem _ (List.mem_append_right _ hmem))
  · cases hp
    refine ⟨h.sketched.1.1, hid, fun hmem => h.apart id hmem List.mem_cons_self, ?_, fun i hi heq => ?_⟩
    · rw [h.sketched.1.2]
    · rw [h.sketched.1.2] at heq
      exact hdisjoint (Layout.mem_ids_of_root? heq) (Layout.mem_ids_of_root? hi)

theorem Regrown.join (hr : Regrown a a' (some id) extra r r')
    (h : Spot a parent extra (.join id k priority l r)) :
    Regrown a a' parent extra (.join id k priority l r) (.join id k priority l r') := by
  obtain ⟨⟨hidl, hidr⟩, hlnodup, -, hdisjoint⟩ := Layout.nodup_join.mp h.nodup
  have hlt := h.sketched.lt_size
  -- a node of the tree outside the right operand is not taken in by the new one
  have houtside : ∀ i ∈ id :: l.ids, i ∉ r.ids → i ∉ r'.ids := by
    intro i hi hnot hmem
    have hi : i ∈ (Layout.join id k priority l r).ids := by
      rw [Layout.ids, ← List.cons_append]
      exact List.mem_append_left _ hi
    rcases hr.origin i hmem with hmem | hmem | hle
    · exact hnot hmem
    · exact h.apart i hmem hi
    · exact absurd (hlt i hi) (Nat.not_lt_of_le hle)
  have hl : ∀ i ∈ l.ids, a'.node i = a.node i := by
    intro i hi
    have hmem : i ∈ (Layout.join id k priority l r).ids :=
      List.mem_cons_of_mem _ (List.mem_append_left _ hi)
    refine hr.frame i (hlt i hmem) (hdisjoint hi) (fun hextra => h.apart i hextra hmem) fun heq => ?_
    cases heq
    exact hidl hi
  refine
    { sketched := ⟨⟨Nat.lt_of_lt_of_le h.sketched.1.1 hr.size_le, ?_⟩,
        h.sketched.2.1.of_eq hr.size_le hl, hr.sketched⟩
      nodup := ?_
      size_le := hr.size_le
      kept := ?_
      origin := ?_
      frame := ?_
      above := ?_ }
  · rw [hr.above id rfl, h.sketched.1.2]
  · refine Layout.nodup_join.mpr ⟨⟨hidl, ?_⟩, hlnodup, hr.nodup, fun i hi => ?_⟩
    · exact houtside id List.mem_cons_self hidr
    · exact houtside i (List.mem_cons_of_mem _ hi) (hdisjoint hi)
  · intro i hi
    rcases List.mem_cons.mp hi with rfl | hi
    · exact List.mem_cons_self
    · exact List.mem_cons_of_mem _ (List.mem_append.mpr ((List.mem_append.mp hi).imp_right (hr.kept i)))
  · intro i hi
    rcases List.mem_cons.mp hi with rfl | hi
    · exact Or.inl List.mem_cons_self
    · rcases List.mem_append.mp hi with hi | hi
      · exact Or.inl (List.mem_cons_of_mem _ (List.mem_append_left _ hi))
      · exact (hr.origin i hi).imp_left fun hi =>
          List.mem_cons_of_mem _ (List.mem_append_right _ hi)
  · intro i hi hnot hextra _
    refine hr.frame i hi (fun hmem => hnot ?_) hextra fun heq => hnot ?_
    · exact List.mem_cons_of_mem _ (List.mem_append_right _ hmem)
    · cases heq
      exact List.mem_cons_self
  · intro q hq
    obtain ⟨hlt, hnot, hextra, hright, -⟩ := h.above q hq
    have hframe : a'.node q = a.node q := by
      refine hr.frame q hlt (fun hmem => hnot ?_) hextra fun heq => hnot ?_
      · exact List.mem_cons_of_mem _ (List.mem_append_right _ hmem)
      · cases heq
        exact List.mem_cons_self
    exact hframe.trans (congrArg (fun right => { a.node q with right }) hright)

/-! ## A new node -/

/-- Filling an empty node makes it a layout of one node. -/
structure Fills (f : Node → Node) (parent : Option Nat) (id : Nat) (L : Layout) : Prop where
  ids : L.ids = [id]
  root : L.root? = some id
  sketches : ∀ {b : Arena}, id < b.size → b.node id = f { parent } → b.Sketches parent L

theorem fills_atom (parent : Option Nat) (id : Nat) (x : Atom) :
    Fills (fun n => { n with data := some (.atom x) }) parent id (.atom id x) :=
  ⟨rfl, rfl, fun hid hnode => ⟨hid, hnode⟩⟩

theorem sketches_ofOperator (hid : id < b.size)
    (hnode : b.node id =
      { data := some (.operator op), priority := op.precedence, left := L.root?, parent })
    (hL : b.Sketches (some id) L) : b.Sketches parent (.ofOperator id op L) := by
  cases op with
  | connective k => exact ⟨⟨hid, hnode⟩, hL, trivial⟩
  | modifier m => exact ⟨⟨hid, hnode⟩, hL⟩

theorem fills_operator (parent : Option Nat) (id : Nat) (op : Operator) :
    Fills (fun n => { n with data := some (.operator op), priority := op.precedence }) parent id
      (.ofOperator id op .hole) :=
  ⟨Layout.ids_ofOperator op, Layout.root?_ofOperator op, fun hid hnode => sketches_ofOperator hid hnode trivial⟩

theorem fst_newNode : a.newNode.1 = a.size :=
  rfl

theorem size_newRightChild : (a.newRightChild p).2.size = a.size + 1 := by
  rw [newRightChild, size_update, size_update, size_newNode]

theorem node_newRightChild (hp : p < a.size) : (a.newRightChild p).2.node i =
    if i = p then { a.node p with right := some a.size }
    else if i = a.size then { parent := some p } else a.node i := by
  simp only [newRightChild, fst_newNode]
  rw [node_update (by simp; omega), node_update (by simp), node_newNode]
  by_cases hip : i = p
  · rw [if_pos hip, if_pos hip, hip, if_neg (Nat.ne_of_lt hp)]
  · rw [if_neg hip, if_neg hip]
    split
    · next heq => rw [heq, node_of_le (Nat.le_refl _)]
    · rfl

/-- The content of one node moves to another, and its children get a new parent. -/
theorem node_adopt (hid : id < a.size) (hsub : sub < a.size) (hne : id ≠ sub)
    (hlt : ∀ c ∈ (a.node sub).children, c < a.size ∧ c ≠ id ∧ c ≠ sub)
    (hnodup : (a.node sub).children.Nodup) : (a.adopt id sub).node i =
      if i = id then
        { a.node id with data := (a.node sub).data, priority := (a.node sub).priority,
                         left := (a.node sub).left, right := (a.node sub).right,
                         index := (a.node sub).index }
      else if i = sub then {}
      else if i ∈ (a.node sub).children then { a.node i with parent := some id }
      else a.node i := by
  have hlt' : ∀ c ∈ (a.node sub).children, c < ((a.update sub fun _ => {}).update id fun n =>
      { n with data := (a.node sub).data, priority := (a.node sub).priority, left := (a.node sub).left,
               right := (a.node sub).right, index := (a.node sub).index }).size := fun c hc => by
    rw [size_update, size_update]
    exact (hlt c hc).1
  rw [adopt, node_foldl_update hlt' hnodup, node_update (size_update.symm ▸ hid), node_update hsub]
  by_cases hi : i = id
  · have hnot : i ∉ (a.node sub).children := fun hmem => (hlt i hmem).2.1 hi
    have hisub : i ≠ sub := hi ▸ hne
    rw [if_neg hnot, if_pos hi, if_neg hisub, if_pos hi, hi]
  · by_cases hisub : i = sub
    · have hnot : i ∉ (a.node sub).children := fun hmem => (hlt i hmem).2.2 hisub
      rw [if_neg hnot, if_neg hi, if_pos hisub, if_neg hi, if_pos hisub]
    · rw [if_neg hi, if_neg hisub, if_neg hi, if_neg hisub]

theorem size_adopt : (a.adopt id sub).size = a.size := by
  rw [adopt, size_foldl_update, size_update, size_update]

theorem size_setOperator : (a.setOperator id op).size = a.size :=
  size_update

theorem size_wrap : (a.wrap id op).size = a.size + 1 := by
  rw [wrap, size_update]
  split <;> simp [size_setOperator]

theorem node_wrap (hid : id < a.size) (hparent : (a.node id).parent = parent)
    (habove : ∀ p, parent = some p → p < a.size ∧ p ≠ id ∧ (a.node p).left ≠ some id) :
    (a.wrap id op).node i =
      if i = id then { a.node id with parent := some a.size }
      else if parent = some i then { a.node i with right := some a.size }
      else if i = a.size then
        { data := some (.operator op), priority := op.precedence, left := some id, parent }
      else a.node i := by
  -- the arena in which the new operator stands alone above the node
  have hw : ∀ j, (((a.newNode.2.setOperator a.size op).update a.size fun n =>
      { n with left := some id, parent })).node j =
      if j = a.size then { data := some (.operator op), priority := op.precedence, left := some id, parent }
      else a.node j := by
    intro j
    rw [setOperator, node_update (by simp), node_update (by simp), node_newNode]
    split
    · next heq => rw [heq, node_of_le (Nat.le_refl _)]
    · rfl
  cases parent with
  | none =>
    simp only [wrap, hparent, fst_newNode]
    rw [node_update (by simp [size_setOperator]; omega), hw]
    split
    · next heq => rw [heq, if_neg (Nat.ne_of_lt hid)]
    · rw [if_neg (Option.some_ne_none i).symm]
  | some p =>
    obtain ⟨hp, hne, hleft⟩ := habove p rfl
    simp only [wrap, hparent, fst_newNode]
    rw [node_update (by simp [size_setOperator]; omega), node_update (by simp [size_setOperator]; omega), hw]
    split
    · next heq => rw [heq, if_neg hne.symm, if_neg (Nat.ne_of_lt hid)]
    · by_cases hip : i = p
      · subst hip
        rw [if_pos rfl, if_pos rfl, if_neg (Nat.ne_of_lt hp), if_neg hleft]
      · rw [if_neg hip, if_neg fun heq => hip (Option.some.inj heq).symm]

/-! ## What a push does where it ends -/

/-- An empty node is filled. -/
theorem regrown_update (h : Spot a parent extra (.empty id)) (hL : Fills f parent id L) :
    Regrown a (a.update id f) parent extra (.empty id) L := by
  obtain ⟨hparent, hid, hnode⟩ := h.sketched
  subst hparent
  exact
    { sketched := hL.sketches (size_update.symm ▸ hid) (by rw [node_update_self hid, hnode])
      nodup := hL.ids.symm ▸ List.nodup_singleton id
      size_le := Nat.le_of_eq size_update.symm
      kept := fun i hi => by rwa [hL.ids]
      origin := fun i hi => Or.inl (by rwa [hL.ids] at hi)
      frame := fun i _ hi _ _ => node_update_of_ne (List.ne_of_not_mem_cons hi)
      above := nofun }

/-- A missing right operand becomes a new node, which is filled. -/
theorem regrown_newRightChild (h : Spot a (some p) extra .hole) (hL : Fills f (some p) a.size L) :
    Regrown a ((a.newRightChild p).2.update a.size f) (some p) extra .hole L := by
  obtain ⟨hp, -⟩ := h.above p rfl
  have hsize : ((a.newRightChild p).2.update a.size f).size = a.size + 1 := by
    rw [size_update, size_newRightChild]
  have hnew : a.size < (a.newRightChild p).2.size := by
    rw [size_newRightChild]
    exact Nat.lt_succ_self _
  refine
    { sketched := hL.sketches (hsize ▸ Nat.lt_succ_self _) ?_
      nodup := hL.ids.symm ▸ List.nodup_singleton _
      size_le := hsize ▸ Nat.le_succ _
      kept := nofun
      origin := fun i hi => Or.inr (Or.inr ?_)
      frame := fun i hi _ _ hpi => ?_
      above := fun q hq => ?_ }
  · rw [node_update_self hnew, node_newRightChild hp, if_neg (Nat.ne_of_gt hp), if_pos rfl]
  · rw [hL.ids, List.mem_singleton] at hi
    exact Nat.le_of_eq hi.symm
  · rw [node_update_of_ne (Nat.ne_of_lt hi), node_newRightChild hp,
      if_neg fun heq => hpi (congrArg some heq.symm), if_neg (Nat.ne_of_lt hi)]
  · cases hq
    rw [node_update_of_ne (Nat.ne_of_lt hp), node_newRightChild hp, if_pos rfl, hL.root]

/-- A node is wrapped. -/
theorem regrown_wrap (h : Spot a parent extra L) (hfilled : L.draft ≠ .hole)
    (hroot : L.root? = some id) :
    Regrown a (a.wrap id op) parent extra L (.ofOperator a.size op L) := by
  have hmem : id ∈ L.ids := Layout.mem_ids_of_root? hroot
  have hlt := h.sketched.lt_size
  have hnode : ∀ i, (a.wrap id op).node i =
      if i = id then { a.node id with parent := some a.size }
      else if parent = some i then { a.node i with right := some a.size }
      else if i = a.size then
        { data := some (.operator op), priority := op.precedence, left := some id, parent }
      else a.node i := fun i =>
    node_wrap (hlt id hmem) (h.sketched.parent_root hroot) fun p hp =>
      ⟨(h.above p hp).1, fun heq => (h.above p hp).2.1 (heq ▸ hmem), (h.above p hp).2.2.2.2 id hroot⟩
  have habove : ∀ i, a.size ≤ i ∨ i ∈ L.ids → parent ≠ some i := fun i hi hp =>
    hi.elim (Nat.not_le_of_lt (h.above i hp).1) (h.above i hp).2.1
  have hnew : ∀ i ∈ L.ids, i ≠ a.size := fun i hi => Nat.ne_of_lt (hlt i hi)
  have hsize : a.size ≤ (a.wrap id op).size := size_wrap ▸ Nat.le_succ _
  refine
    { sketched := sketches_ofOperator (size_wrap ▸ Nat.lt_succ_self _) ?_
        (h.sketched.reparent hfilled h.nodup hsize ?_ ?_)
      nodup := ?_
      size_le := hsize
      kept := fun i hi => Layout.ids_ofOperator op ▸ List.mem_cons_of_mem _ hi
      origin := ?_
      frame := ?_
      above := ?_ }
  · rw [hnode, if_neg (hnew id hmem).symm, if_neg (habove _ (Or.inl (Nat.le_refl _))), if_pos rfl, hroot]
  · intro i hi
    cases hroot.symm.trans hi
    rw [hnode, if_pos rfl]
  · intro i hi hne
    have hne : i ≠ id := fun heq => hne (heq ▸ hroot)
    rw [hnode, if_neg hne, if_neg (habove i (Or.inr hi)), if_neg (hnew i hi)]
  · rw [Layout.ids_ofOperator]
    exact List.nodup_cons.mpr ⟨fun hi => hnew _ hi rfl, h.nodup⟩
  · intro i hi
    rw [Layout.ids_ofOperator] at hi
    rcases List.mem_cons.mp hi with rfl | hi
    · exact Or.inr (Or.inr (Nat.le_refl _))
    · exact Or.inl hi
  · intro i hi hnot _ hp
    rw [hnode, if_neg (ne_of_mem_of_not_mem hmem hnot).symm, if_neg hp, if_neg (Nat.ne_of_lt hi)]
  · intro p hp
    rw [hnode, if_neg (ne_of_mem_of_not_mem hmem (h.above p hp).2.1).symm, if_pos hp, Layout.root?_ofOperator]

/-! ## Taking in another tree -/

section Hang

variable (hS : a.Sketches none S) (hroot : S.root? = some sub) (hnodup : S.ids.Nodup)
  (hcomplete : S.draft.isComplete = true)

include hS hroot hnodup hcomplete

/-- A tree is hung at the place of a missing right operand. -/
theorem regrown_hang (h : Spot a (some p) S.ids .hole) :
    Regrown a ((a.update p fun n => { n with right := some sub }).update sub
      fun n => { n with parent := some p }) (some p) S.ids .hole S := by
  have hsub : sub ∈ S.ids := Layout.mem_ids_of_root? hroot
  obtain ⟨hp, -, hpS, -⟩ := h.above p rfl
  have hne : sub ≠ p := ne_of_mem_of_not_mem hsub hpS
  have hnode : ∀ i, ((a.update p fun n => { n with right := some sub }).update sub
      fun n => { n with parent := some p }).node i =
        if i = sub then { a.node sub with parent := some p }
        else if i = p then { a.node p with right := some sub } else a.node i := by
    intro i
    rw [node_update (size_update.symm ▸ hS.lt_size sub hsub), node_update hp]
    split
    · next heq => rw [heq, if_neg hne]
    · split
      · next heq => rw [heq]
      · rfl
  have hsize : a.size = ((a.update p fun n => { n with right := some sub }).update sub
      fun n => { n with parent := some p }).size := by
    rw [size_update, size_update]
  refine
    { sketched := hS.reparent (Draft.ne_hole hcomplete) hnodup (Nat.le_of_eq hsize) ?_ ?_
      nodup := hnodup
      size_le := Nat.le_of_eq hsize
      kept := nofun
      origin := fun i hi => Or.inr (Or.inl hi)
      frame := ?_
      above := ?_ }
  · intro i hi
    cases hroot.symm.trans hi
    rw [hnode, if_pos rfl]
  · intro i hi hne
    have hne : i ≠ sub := fun heq => hne (heq ▸ hroot)
    rw [hnode, if_neg hne, if_neg (ne_of_mem_of_not_mem hi hpS)]
  · intro i _ _ hi hpi
    have hpi : i ≠ p := fun heq => hpi (congrArg some heq.symm)
    rw [hnode, if_neg (ne_of_mem_of_not_mem hsub hi).symm, if_neg hpi]
  · intro q hq
    cases hq
    rw [hnode, if_neg hne.symm, if_pos rfl, hroot]

/-- The content of the root stands at another node, which the operands have as their parent now. -/
theorem sketches_withRoot (hid : id < a'.size) (hsize : a.size ≤ a'.size)
    (hcontent : a'.node id = { a.node sub with parent := none, link := none })
    (hchild : ∀ i ∈ (a.node sub).children, a'.node i = { a.node i with parent := some id })
    (hothers : ∀ i ∈ S.ids.tail, i ∉ (a.node sub).children → a'.node i = a.node i) :
    a'.Sketches none (S.withRoot id) := by
  cases S with
  | hole => cases hcomplete
  | empty => cases hcomplete
  | atom s x =>
    cases hroot
    exact ⟨hid, by rw [hcontent, hS.2]⟩
  | modify s m p d =>
    cases hroot
    have hmem : ∀ i, i ∈ (a.node sub).children ↔ d.root? = some i := fun i => by
      rw [hS.1.2]
      simp [Node.children]
    refine ⟨⟨hid, by rw [hcontent, hS.1.2]⟩,
      hS.2.reparent (Draft.ne_hole hcomplete) hnodup.tail hsize (fun i hi => ?_) fun i hi hne => ?_⟩
    · exact hchild i ((hmem i).mpr hi)
    · exact hothers i hi (mt (hmem i).mp hne)
  | join s k p l r =>
    cases hroot
    have hmem : ∀ i, i ∈ (a.node sub).children ↔ l.root? = some i ∨ r.root? = some i := fun i => by
      rw [hS.1.2]
      simp [Node.children]
    obtain ⟨-, hlnodup, hrnodup, hdisjoint⟩ := Layout.nodup_join.mp hnodup
    obtain ⟨hlcomplete, hrcomplete⟩ := Bool.and_eq_true_iff.mp hcomplete
    refine ⟨⟨hid, by rw [hcontent, hS.1.2]⟩,
      hS.2.1.reparent (Draft.ne_hole hlcomplete) hlnodup hsize (fun i hi => ?_) fun i hi hne => ?_,
      hS.2.2.reparent (Draft.ne_hole hrcomplete) hrnodup hsize (fun i hi => ?_) fun i hi hne => ?_⟩
    · exact hchild i ((hmem i).mpr (Or.inl hi))
    · refine hothers i (List.mem_append_left _ hi) (mt (hmem i).mp (not_or.mpr ⟨hne, fun hr => ?_⟩))
      exact hdisjoint hi (Layout.mem_ids_of_root? hr)
    · exact hchild i ((hmem i).mpr (Or.inr hi))
    · refine hothers i (List.mem_append_right _ hi) (mt (hmem i).mp (not_or.mpr ⟨fun hl => ?_, hne⟩))
      exact hdisjoint (Layout.mem_ids_of_root? hl) hi

/-- The content of a tree moves into an empty node. -/
theorem regrown_adopt (h : Spot a parent S.ids (.empty id)) :
    Regrown a (a.adopt id sub) parent S.ids (.empty id) (S.withRoot id) := by
  obtain ⟨hparent, hid, hempty⟩ := h.sketched
  subst hparent
  have hidS : id ∉ S.ids := fun hmem => h.apart id hmem List.mem_cons_self
  have hsub : sub ∈ S.ids := Layout.mem_ids_of_root? hroot
  have hlt := hS.lt_size
  have hids := Layout.ids_eq_cons hroot
  have hchildren := hS.children_sublist hroot
  have htail : ∀ i ∈ S.ids.tail, i < a.size ∧ i ≠ id ∧ i ≠ sub := by
    intro i hi
    have hmem : i ∈ S.ids := List.mem_of_mem_tail hi
    refine ⟨hlt i hmem, ne_of_mem_of_not_mem hmem hidS, fun heq => ?_⟩
    rw [hids] at hnodup
    exact (List.nodup_cons.mp hnodup).1 (heq ▸ hi)
  have hnode : ∀ i, (a.adopt id sub).node i = _ := fun i =>
    node_adopt hid (hlt sub hsub) (ne_of_mem_of_not_mem hsub hidS).symm
      (fun c hc => htail c (hchildren.subset hc)) (hnodup.tail.sublist hchildren)
  have hsize : a.size ≤ (a.adopt id sub).size := Nat.le_of_eq size_adopt.symm
  refine
    { sketched := sketches_withRoot hS hroot hnodup hcomplete (Nat.lt_of_lt_of_le hid hsize) hsize
        ?_ ?_ ?_
      nodup := ?_
      size_le := hsize
      kept := ?_
      origin := ?_
      frame := ?_
      above := nofun }
  · rw [hnode, if_pos rfl, hempty]
  · intro i hi
    obtain ⟨-, hne, hne'⟩ := htail i (hchildren.subset hi)
    rw [hnode, if_neg hne, if_neg hne', if_pos hi]
  · intro i hi hnot
    obtain ⟨-, hne, hne'⟩ := htail i hi
    rw [hnode, if_neg hne, if_neg hne', if_neg hnot]
  · rw [Layout.ids_withRoot (hroot ▸ rfl)]
    exact List.nodup_cons.mpr ⟨fun hi => (htail id hi).2.1 rfl, hnodup.tail⟩
  · intro i hi
    rw [Layout.ids_withRoot (hroot ▸ rfl), List.mem_singleton.mp hi]
    exact List.mem_cons_self
  · intro i hi
    rw [Layout.ids_withRoot (hroot ▸ rfl)] at hi
    exact (List.mem_cons.mp hi).imp (fun heq => List.mem_singleton.mpr heq) fun hi =>
      Or.inl (List.mem_of_mem_tail hi)
  · intro i _ hi hnot _
    have hnot' : i ∉ (a.node sub).children := fun hmem =>
      hnot (List.mem_of_mem_tail (hchildren.subset hmem))
    rw [hnode, if_neg (List.ne_of_not_mem_cons hi), if_neg (ne_of_mem_of_not_mem hsub hnot).symm,
      if_neg hnot']

end Hang

end Arena

end RegularSets
