import RegularSets.Proofs.Expression.Draft
import RegularSets.Proofs.Expression.Growth

/-!
# Reading into an arena

Reading into an arena does what reading on drafts does (`Arena.agree_readOn`): it fails for the same reason,
or the arena holds a layout of the draft in the end. Each push is followed along the way right through the
layout, on which the push of drafts recurs, and where the way ends the part at its end is regrown.
-/

namespace RegularSets

/-- Two computations fail for the same reason, or have results that fit together. -/
inductive Agree {ε α β : Type} (Fits : α → β → Prop) : Except ε α → Except ε β → Prop
  | error (e : ε) : Agree Fits (.error e) (.error e)
  | ok {x : α} {y : β} (fits : Fits x y) : Agree Fits (.ok x) (.ok y)

namespace Agree

variable {ε α β γ δ : Type} {Fits : α → β → Prop} {Fits' : γ → δ → Prop} {x : Except ε α}
  {y : Except ε β}

theorem bind {f : α → Except ε γ} {g : β → Except ε δ} (h : Agree Fits x y)
    (hnext : ∀ {a b}, Fits a b → Agree Fits' (f a) (g b)) : Agree Fits' (x >>= f) (y >>= g) := by
  cases h with
  | error e => exact .error e
  | ok fits => exact hnext fits

theorem imp {Fits' : α → β → Prop} (h : Agree Fits x y) (hfits : ∀ a b, Fits a b → Fits' a b) :
    Agree Fits' x y := by
  cases h with
  | error e => exact .error e
  | ok fits => exact .ok (hfits _ _ fits)

/-- What is made of the second result does not matter to the first one. -/
theorem map_right {Fits' : α → δ → Prop} {g : β → δ} (h : Agree Fits x y)
    (hfits : ∀ {a b}, Fits a b → Fits' a (g b)) : Agree Fits' x (y >>= fun b => .ok (g b)) := by
  cases h with
  | error e => exact .error e
  | ok fits => exact .ok (hfits fits)

end Agree

namespace Arena

variable {a a' : Arena} {L L' S : Layout} {parent next position : Option Nat} {linked : Bool}
  {id i sub fuel : Nat} {pass : Node → Bool} {op : Operator} {x : Atom}

/-! ## The way right -/

theorem descend_of_right_eq_none (h : (a.node id).right = none) : a.descend pass fuel id = id := by
  cases fuel with
  | zero => rfl
  | succ fuel => rw [descend, h]

theorem descend_of_not_pass (h : pass (a.node id) = false) : a.descend pass fuel id = id := by
  cases fuel with
  | zero => rfl
  | succ fuel =>
    rw [descend]
    split
    · rfl
    · rw [h]
      rfl

theorem descend_succ {r : Nat} (hright : (a.node id).right = some r) (hpass : pass (a.node id) = true) :
    a.descend pass (fuel + 1) id = a.descend pass fuel r := by
  rw [descend, hright]
  exact if_pos hpass

/-- At an operator that may be passed the way goes on into its right operand. -/
theorem exists_descend_eq {k : Connective} {p : Nat} {l r : Layout}
    (h : a.Draws linked parent next position (.join id k p l r)) (hr : r.root? = some i)
    (hpass : pass (a.node id) = true) (hfuel : (Layout.join id k p l r).ids.length ≤ fuel) :
    ∃ rest, r.ids.length ≤ rest ∧ a.descend pass fuel id = a.descend pass rest i := by
  rw [Layout.ids, List.length_cons, List.length_append] at hfuel
  obtain ⟨rest, rfl⟩ := Nat.exists_eq_add_one.mpr (Nat.lt_of_lt_of_le (Nat.succ_pos _) hfuel)
  exact ⟨rest, by omega, descend_succ (by rw [h.1.2, hr]) hpass⟩

/-! ## The way up -/

theorem ascend_succ {p : Nat} (h : (a.node id).parent = some p) :
    a.ascend (fuel + 1) id = a.ascend fuel p := by
  rw [ascend, h]

/-- The way up comes to the root of the layout in fewer steps than the layout has nodes. -/
def Climbs (a : Arena) (i : Nat) (L : Layout) : Prop :=
  ∃ r n, L.root? = some r ∧ n < L.ids.length ∧ ∀ fuel, a.ascend (n + fuel) i = a.ascend fuel r

theorem climbs_root (hroot : L.root? = some i) : a.Climbs i L :=
  ⟨i, 0, hroot, List.length_pos_of_mem (Layout.mem_ids_of_root? hroot), fun fuel => by
    rw [Nat.zero_add]⟩

/-- From the root of an operand the way up goes on to the operator. -/
theorem Climbs.exists_ascend_eq (h : a.Climbs i L) (hL : a.Draws linked (some id) next position L) :
    ∃ n ≤ L.ids.length, ∀ fuel, a.ascend (n + fuel) i = a.ascend fuel id := by
  obtain ⟨r, n, hr, hn, hfuel⟩ := h
  refine ⟨n + 1, hn, fun fuel => ?_⟩
  rw [Nat.add_right_comm, Nat.add_assoc, hfuel, ascend_succ (hL.parent_root hr)]

theorem climbs_of_mem (h : a.Draws linked parent next position L) (hi : i ∈ L.ids) :
    a.Climbs i L := by
  induction L generalizing parent next position with
  | hole => cases hi
  | empty id => exact climbs_root (congrArg some (List.mem_singleton.mp hi).symm)
  | atom id x => exact climbs_root (congrArg some (List.mem_singleton.mp hi).symm)
  | modify id m p d ih =>
    rcases List.mem_cons.mp hi with rfl | hi
    · exact climbs_root rfl
    · obtain ⟨n, hn, hfuel⟩ := (ih h.2 hi).exists_ascend_eq h.2
      exact ⟨id, n, rfl, Nat.lt_succ_of_le hn, hfuel⟩
  | join id k p l r ihl ihr =>
    rcases List.mem_cons.mp hi with rfl | hi
    · exact climbs_root rfl
    · have hlength : (Layout.join id k p l r).ids.length = l.ids.length + r.ids.length + 1 := by
        rw [Layout.ids, List.length_cons, List.length_append]
      rcases List.mem_append.mp hi with hi | hi
      · obtain ⟨n, hn, hfuel⟩ := (ihl h.2.1 hi).exists_ascend_eq h.2.1
        exact ⟨id, n, rfl, by omega, hfuel⟩
      · obtain ⟨n, hn, hfuel⟩ := (ihr h.2.2 hi).exists_ascend_eq h.2.2
        exact ⟨id, n, rfl, by omega, hfuel⟩

/-- From every node of a layout the way up leads to its root. -/
theorem rootOf_eq {r : Nat} (h : a.Draws linked none next position L) (hroot : L.root? = some r)
    (hnodup : L.ids.Nodup) (hi : i ∈ L.ids) : a.rootOf i = r := by
  obtain ⟨r', n, hroot', hn, hfuel⟩ := climbs_of_mem h hi
  cases hroot.symm.trans hroot'
  obtain ⟨rest, hrest⟩ := Nat.exists_eq_add_of_lt (Nat.lt_of_lt_of_le hn (h.length_ids_le hnodup))
  rw [rootOf, hrest, Nat.add_assoc, hfuel, ascend, h.parent_root hroot]

/-! ## All nodes of a tree -/

theorem preorder_nil : a.preorder fuel [] = [] := by
  cases fuel <;> rfl

theorem map_fst_preorder (h : a.Draws linked parent next position L) (hfuel : L.ids.length ≤ fuel)
    (depth : Nat) (stack : List (Nat × Nat)) :
    (a.preorder fuel (L.root?.toList.map (·, depth) ++ stack)).map (·.1) =
      L.ids ++ (a.preorder (fuel - L.ids.length) stack).map (·.1) := by
  induction L generalizing parent next position fuel depth stack with
  | hole => rfl
  | empty id =>
    obtain ⟨fuel, rfl⟩ := Nat.exists_eq_add_one.mpr hfuel
    simp [preorder, h.2.2, Node.children, Layout.ids]
  | atom id x =>
    obtain ⟨fuel, rfl⟩ := Nat.exists_eq_add_one.mpr hfuel
    simp [preorder, h.2, Node.children, Layout.ids]
  | modify id m p d ih =>
    obtain ⟨fuel, rfl⟩ := Nat.exists_eq_add_one.mpr (Nat.lt_of_lt_of_le (Nat.succ_pos _) hfuel)
    have hfuel : d.ids.length ≤ fuel := Nat.le_of_succ_le_succ hfuel
    have hd := ih h.2 hfuel (depth + 1) stack
    simp [preorder, h.1.2, Node.children, Layout.ids, hd]
  | join id k p l r ihl ihr =>
    obtain ⟨fuel, rfl⟩ := Nat.exists_eq_add_one.mpr (Nat.lt_of_lt_of_le (Nat.succ_pos _) hfuel)
    have hfuel : l.ids.length + r.ids.length ≤ fuel := by
      rw [Layout.ids, List.length_cons, List.length_append] at hfuel
      exact Nat.le_of_succ_le_succ hfuel
    have hl := ihl h.2.1 (by omega : l.ids.length ≤ fuel) (depth + 1)
      (r.root?.toList.map (·, depth + 1) ++ stack)
    have hr := ihr h.2.2 (by omega : r.ids.length ≤ fuel - l.ids.length) (depth + 1) stack
    rw [hr] at hl
    simp [preorder, h.1.2, Node.children, Layout.ids, hl, Nat.sub_sub]

theorem subtree_eq (h : a.Draws linked parent next position L) (hroot : L.root? = some id)
    (hnodup : L.ids.Nodup) : a.subtree id = L.ids := by
  have hpreorder := map_fst_preorder h (h.length_ids_le hnodup) 0 []
  rw [hroot, preorder_nil] at hpreorder
  simpa [subtree] using hpreorder

theorem all_isComplete (h : a.Draws linked parent next position L) :
    (L.root?.isSome && L.ids.all fun i => (a.node i).isComplete) = L.draft.isComplete := by
  induction L generalizing parent next position with
  | hole => rfl
  | empty id => simp [Layout.ids, h.2.2, Node.isComplete, Layout.draft, Draft.isComplete]
  | atom id x =>
    simp [Layout.ids, h.2, Node.isComplete, Node.isLeaf, Layout.draft, Draft.isComplete]
  | modify id m p d ih =>
    rw [Layout.draft, Draft.isComplete, ← ih h.2]
    simp [Layout.ids, h.1.2, Node.isComplete, Operator.arity]
  | join id k p l r ihl ihr =>
    rw [Layout.draft, Draft.isComplete, ← ihl h.2.1, ← ihr h.2.2]
    simp [Layout.ids, h.1.2, Node.isComplete, Operator.arity, Bool.and_assoc,
      Bool.and_left_comm]

theorem isValidSubtree_eq (h : a.Draws linked parent next position L) (hroot : L.root? = some id)
    (hnodup : L.ids.Nodup) : a.isValidSubtree id = L.draft.isComplete := by
  rw [← all_isComplete h, isValidSubtree, subtree_eq h hroot hnodup, hroot]
  rfl

/-! ## Raising priorities -/

theorem node_changePriority {amount : Nat} (h : a.Sketches parent L) (hroot : L.root? = some id)
    (hnodup : L.ids.Nodup) : (a.changePriority id amount).node i =
      if i ∈ L.ids then
        (if (a.node i).isOperator then { a.node i with priority := (a.node i).priority + amount }
          else a.node i)
      else a.node i := by
  rw [changePriority, subtree_eq h hroot hnodup, node_foldl_update h.lt_size hnodup]

theorem size_changePriority {amount : Nat} : (a.changePriority id amount).size = a.size :=
  size_foldl_update

theorem sketches_raise {amount : Nat} (h : a.Sketches parent L) (hsize : a.size ≤ a'.size)
    (hnode : ∀ i ∈ L.ids, a'.node i =
      if (a.node i).isOperator then { a.node i with priority := (a.node i).priority + amount }
      else a.node i) : a'.Sketches parent (L.raise amount) := by
  induction L generalizing parent with
  | hole => trivial
  | empty id =>
    exact ⟨h.1, Nat.lt_of_lt_of_le h.2.1 hsize, by rw [hnode id List.mem_cons_self, h.2.2]; rfl⟩
  | atom id x =>
    exact ⟨Nat.lt_of_lt_of_le h.1 hsize, by rw [hnode id List.mem_cons_self, h.2]; rfl⟩
  | modify id m p d ih =>
    obtain ⟨hid, hd⟩ := List.forall_mem_cons.mp hnode
    refine ⟨⟨Nat.lt_of_lt_of_le h.1.1 hsize, ?_⟩, ih h.2 hd⟩
    rw [hid, h.1.2, Layout.root?_raise]
    rfl
  | join id k p l r ihl ihr =>
    obtain ⟨hid, hoperands⟩ := List.forall_mem_cons.mp hnode
    obtain ⟨hl, hr⟩ := List.forall_mem_append.mp hoperands
    refine ⟨⟨Nat.lt_of_lt_of_le h.1.1 hsize, ?_⟩, ihl h.2.1 hl, ihr h.2.2 hr⟩
    rw [hid, h.1.2, Layout.root?_raise, Layout.root?_raise]
    rfl

/-! ## Pushing -/

theorem agree_pushAtomAt (h : Spot a parent [] L) (hroot : L.root? = some id)
    (hfuel : L.ids.length ≤ fuel) :
    Agree (fun a' d => ∃ L', Regrown a a' parent [] L L' ∧ L'.draft = d)
      (a.pushAtomAt (a.descend Node.isOperator fuel id) x) (Draft.insert (.atom x) L.draft) := by
  induction L generalizing parent id fuel with
  | hole => cases hroot
  | empty =>
    cases hroot
    rw [descend_of_right_eq_none (by rw [h.sketched.2.2]), pushAtomAt, h.sketched.2.2]
    exact .ok ⟨_, regrown_update h (fills_atom _ _ x), rfl⟩
  | atom =>
    cases hroot
    rw [descend_of_right_eq_none (by rw [h.sketched.2]), pushAtomAt, h.sketched.2]
    exact .error _
  | modify =>
    cases hroot
    rw [descend_of_right_eq_none (by rw [h.sketched.1.2]), pushAtomAt, h.sketched.1.2]
    exact .error _
  | join j k p l r _ ihr =>
    cases hroot
    cases hr : r.root? with
    | none =>
      obtain rfl := Layout.eq_hole hr
      rw [descend_of_right_eq_none (by rw [h.sketched.1.2, hr]), pushAtomAt, h.sketched.1.2]
      exact .ok ⟨_, (regrown_newRightChild h.right (fills_atom _ _ x)).join h, rfl⟩
    | some i =>
      have hpass : (a.node j).isOperator = true := by rw [h.sketched.1.2]; rfl
      obtain ⟨rest, hrest, heq⟩ := exists_descend_eq h.sketched hr hpass hfuel
      rw [heq]
      refine (ihr h.right hr hrest).map_right ?_
      rintro a' _ ⟨r', hr', rfl⟩
      exact ⟨_, hr'.join h, rfl⟩

theorem agree_pushOperatorAt (h : Spot a parent [] L) (hroot : L.root? = some id)
    (hfuel : L.ids.length ≤ fuel) :
    Agree (fun a' d => ∃ L', Regrown a a' parent [] L L' ∧ L'.draft = d)
      (a.pushOperatorAt (a.descend (Node.isPassedBy op) fuel id) op) (L.draft.insertOperator op) := by
  induction L generalizing parent id fuel with
  | hole => cases hroot
  | empty =>
    cases hroot
    rw [descend_of_right_eq_none (by rw [h.sketched.2.2]), pushOperatorAt, h.sketched.2.2]
    exact .ok ⟨_, regrown_update h (fills_operator _ _ op), Layout.draft_ofOperator op⟩
  | atom =>
    cases hroot
    rw [descend_of_right_eq_none (by rw [h.sketched.2]), pushOperatorAt, h.sketched.2]
    exact .ok ⟨_, regrown_wrap h (by simp [Layout.draft]) rfl, Layout.draft_ofOperator op⟩
  | modify _ m p d =>
    cases hroot
    rw [descend_of_right_eq_none (by rw [h.sketched.1.2]), pushOperatorAt, h.sketched.1.2]
    by_cases hp : op.precedence < p
    · have hwrap : ¬ p ≤ op.precedence := Nat.not_le_of_lt hp
      simp only [Node.isPassedBy, Node.isOperator, Bool.true_and, decide_eq_true_eq, if_neg hwrap,
        Layout.draft, Draft.insertOperator, if_pos hp]
      exact .ok ⟨_, regrown_wrap h (by simp [Layout.draft]) rfl, Layout.draft_ofOperator op⟩
    · have hpass : p ≤ op.precedence := Nat.le_of_not_lt hp
      simp only [Node.isPassedBy, Node.isOperator, Bool.true_and, decide_eq_true_eq, if_pos hpass,
        Layout.draft, Draft.insertOperator, if_neg hp]
      exact .error _
  | join j k p l r _ ihr =>
    cases hroot
    cases hr : r.root? with
    | none =>
      obtain rfl := Layout.eq_hole hr
      rw [descend_of_right_eq_none (by rw [h.sketched.1.2, hr]), pushOperatorAt, h.sketched.1.2]
      exact .ok ⟨_, (regrown_newRightChild h.right (fills_operator _ _ op)).join h,
        congrArg _ (Layout.draft_ofOperator op)⟩
    | some i =>
      have hfilled : r.draft ≠ .hole := h.right.sketched.draft_ne_hole hr
      rw [Layout.draft, Draft.insertOperator_join hfilled]
      by_cases hp : op.precedence < p
      · have hwrap : ¬ p ≤ op.precedence := Nat.not_le_of_lt hp
        have hstop : (a.node j).isPassedBy op = false := by
          simp [h.sketched.1.2, Node.isPassedBy, Node.isOperator, hwrap]
        rw [if_pos hp, descend_of_not_pass hstop, pushOperatorAt, h.sketched.1.2, hr]
        simp only [Node.isPassedBy, Node.isOperator, Bool.true_and, decide_eq_true_eq, if_neg hwrap]
        exact .ok ⟨_, regrown_wrap h (by simp [Layout.draft]) rfl, Layout.draft_ofOperator op⟩
      · have hpass : p ≤ op.precedence := Nat.le_of_not_lt hp
        have hgo : Node.isPassedBy op (a.node j) = true := by
          simp [h.sketched.1.2, Node.isPassedBy, Node.isOperator, hpass]
        obtain ⟨rest, hrest, heq⟩ := exists_descend_eq h.sketched hr hgo hfuel
        rw [if_neg hp, heq]
        refine (ihr h.right hr hrest).map_right ?_
        rintro a' _ ⟨r', hr', rfl⟩
        exact ⟨_, hr'.join h, rfl⟩

section Subtree

variable (hS : a.Sketches none S) (hsub : S.root? = some sub) (hnodup : S.ids.Nodup)
  (hcomplete : S.draft.isComplete = true)

include hS hsub hnodup hcomplete

/-- A group takes the open place, and the tree around it keeps its root. -/
theorem agree_pushSubtreeAt (h : Spot a parent S.ids L) (hroot : L.root? = some id)
    (hfuel : L.ids.length ≤ fuel) :
    Agree (fun a' d => ∃ L', Regrown a a' parent S.ids L L' ∧ L'.draft = d ∧ L'.root? = L.root?)
      (a.pushSubtreeAt (a.descend Node.isOperator fuel id) sub) (Draft.insert S.draft L.draft) := by
  induction L generalizing parent id fuel with
  | hole => cases hroot
  | empty j =>
    cases hroot
    rw [descend_of_right_eq_none (by rw [h.sketched.2.2]), pushSubtreeAt, h.sketched.2.2]
    exact .ok ⟨_, regrown_adopt hS hsub hnodup hcomplete h, Layout.draft_withRoot,
      Layout.root?_withRoot (hsub ▸ rfl)⟩
  | atom =>
    cases hroot
    rw [descend_of_right_eq_none (by rw [h.sketched.2]), pushSubtreeAt, h.sketched.2]
    exact .error _
  | modify =>
    cases hroot
    rw [descend_of_right_eq_none (by rw [h.sketched.1.2]), pushSubtreeAt, h.sketched.1.2]
    exact .error _
  | join j k p l r _ ihr =>
    cases hroot
    cases hr : r.root? with
    | none =>
      obtain rfl := Layout.eq_hole hr
      rw [descend_of_right_eq_none (by rw [h.sketched.1.2, hr]), pushSubtreeAt, h.sketched.1.2]
      exact .ok ⟨_, (regrown_hang hS hsub hnodup hcomplete h.right).join h, rfl, rfl⟩
    | some i =>
      have hpass : (a.node j).isOperator = true := by rw [h.sketched.1.2]; rfl
      obtain ⟨rest, hrest, heq⟩ := exists_descend_eq h.sketched hr hpass hfuel
      rw [heq]
      refine (ihr h.right hr hrest).map_right ?_
      rintro a' _ ⟨r', hr', rfl, -⟩
      exact ⟨_, hr'.join h, rfl, rfl⟩

end Subtree

/-! ## Groups -/

/-- The arena holds the layouts of the open groups, each at its root, and no two of them share a node. -/
structure Groups (a : Arena) (groups : List (Nat × Layout)) : Prop where
  held : ∀ g ∈ groups, g.2.root? = some g.1 ∧ a.Sketches none g.2
  apart : (groups.flatMap fun g => g.2.ids).Nodup

namespace Groups

variable {groups : List (Nat × Layout)} {extra : List Nat}

section Cons

variable (h : Groups a ((id, L) :: groups))

include h

theorem root : L.root? = some id :=
  (h.held _ List.mem_cons_self).1

theorem sketched : a.Sketches none L :=
  (h.held _ List.mem_cons_self).2

theorem nodup_append : (L.ids ++ groups.flatMap fun g => g.2.ids).Nodup :=
  h.apart

theorem nodup : L.ids.Nodup :=
  (List.nodup_append.mp h.nodup_append).1

theorem tail : Groups a groups where
  held g hg := h.held g (List.mem_cons_of_mem _ hg)
  apart := (List.nodup_append.mp h.nodup_append).2.1

theorem not_mem (hi : i ∈ L.ids) : i ∉ groups.flatMap fun g => g.2.ids := fun hmem =>
  (List.nodup_append.mp h.nodup_append).2.2 i hi i hmem rfl

theorem spot : Spot a none [] L where
  sketched := h.sketched
  nodup := h.nodup
  apart := nofun
  above := nofun

end Cons

/-- The nearest group is regrown, and the groups around it stay as they are. -/
theorem regrow (h : Groups a groups) (hL : Regrown a a' none extra L L') (hroot : L'.root? = some id)
    (hapart : ∀ i ∈ groups.flatMap fun g => g.2.ids, i ∉ L.ids ∧ i ∉ extra) :
    Groups a' ((id, L') :: groups) where
  held g hg := by
    rcases List.mem_cons.mp hg with rfl | hg
    · exact ⟨hroot, hL.sketched⟩
    · obtain ⟨hgroot, hsketched⟩ := h.held g hg
      refine ⟨hgroot, hsketched.of_eq hL.size_le fun i hi => ?_⟩
      obtain ⟨hnot, hextra⟩ := hapart i (List.mem_flatMap_of_mem hg hi)
      exact hL.frame i (hsketched.lt_size i hi) hnot hextra nofun
  apart := by
    rw [List.flatMap_cons, List.nodup_append]
    refine ⟨hL.nodup, h.apart, ?_⟩
    rintro i hi j hj rfl
    obtain ⟨hnot, hextra⟩ := hapart i hj
    obtain ⟨g, hg, hmem⟩ := List.mem_flatMap.mp hj
    rcases hL.origin i hi with hmem' | hmem' | hle
    · exact hnot hmem'
    · exact hextra hmem'
    · exact Nat.not_lt_of_le hle ((h.held g hg).2.lt_size i hmem)

/-- A group that opens has an empty node. -/
theorem openGroup (h : Groups a groups) : Groups a.newNode.2 ((a.size, .empty a.size) :: groups) where
  held g hg := by
    rcases List.mem_cons.mp hg with rfl | hg
    · refine ⟨rfl, rfl, ?_, node_newNode.trans (node_of_le (Nat.le_refl _))⟩
      rw [size_newNode]
      exact Nat.lt_succ_self _
    · obtain ⟨hroot, hsketched⟩ := h.held g hg
      exact ⟨hroot, hsketched.of_eq (size_newNode ▸ Nat.le_succ _) fun i _ => node_newNode⟩
  apart := by
    rw [List.flatMap_cons, Layout.ids, List.singleton_append, List.nodup_cons]
    refine ⟨fun hmem => ?_, h.apart⟩
    obtain ⟨g, hg, hmem⟩ := List.mem_flatMap.mp hmem
    exact Nat.lt_irrefl _ ((h.held g hg).2.lt_size _ hmem)

/-- The priorities of the nearest group are raised. -/
theorem raise (h : Groups a ((id, L) :: groups)) (amount : Nat) :
    Groups (a.changePriority id amount) ((id, L.raise amount) :: groups) where
  held g hg := by
    have hnode : ∀ i, (a.changePriority id amount).node i = _ := fun i =>
      node_changePriority h.sketched h.root h.nodup
    rcases List.mem_cons.mp hg with rfl | hg
    · refine ⟨Layout.root?_raise.trans h.root, sketches_raise h.sketched ?_ fun i hi => ?_⟩
      · exact Nat.le_of_eq size_changePriority.symm
      · rw [hnode, if_pos hi]
    · obtain ⟨hroot, hsketched⟩ := h.tail.held g hg
      refine ⟨hroot, hsketched.of_eq (Nat.le_of_eq size_changePriority.symm) fun i hi => ?_⟩
      rw [hnode, if_neg fun hmem => h.not_mem hmem (List.mem_flatMap_of_mem hg hi)]
  apart := by
    rw [List.flatMap_cons, Layout.ids_raise]
    exact h.nodup_append

/-- A push into the nearest group. -/
theorem agree_push (h : Groups a ((id, L) :: groups)) (s : Symbol) :
    Agree (fun a' d => ∃ L', Groups a' ((a'.rootOf id, L') :: groups) ∧ L'.draft = d) (a.push id s)
      (L.draft.push s) := by
  have hfuel := h.sketched.length_ids_le h.nodup
  -- the old root is a node of the new tree, so the new root is found from there
  have hgroups : ∀ {a' L'}, Regrown a a' none [] L L' → Groups a' ((a'.rootOf id, L') :: groups) := by
    intro a' L' hL
    have hid := hL.kept id (Layout.mem_ids_of_root? h.root)
    refine h.tail.regrow hL ?_ fun i hi => ⟨fun hmem => h.not_mem hmem hi, List.not_mem_nil⟩
    cases hroot : L'.root? with
    | none =>
      rw [Layout.eq_hole hroot] at hid
      cases hid
    | some r => rw [rootOf_eq hL.sketched hroot hL.nodup hid]
  cases s with
  | atom x =>
    refine (agree_pushAtomAt h.spot h.root hfuel).imp ?_
    rintro a' d ⟨L', hL, hd⟩
    exact ⟨L', hgroups hL, hd⟩
  | operator op =>
    refine (agree_pushOperatorAt h.spot h.root hfuel).imp ?_
    rintro a' d ⟨L', hL, hd⟩
    exact ⟨L', hgroups hL, hd⟩

/-- The nearest group closes, and its tree becomes part of the group around it. -/
theorem agree_pushSubtree {S : Layout} (h : Groups a ((sub, S) :: (id, L) :: groups))
    (hcomplete : S.draft.isComplete = true) :
    Agree (fun a' d => ∃ L', Groups a' ((id, L') :: groups) ∧ L'.draft = d) (a.pushSubtree id sub)
      (Draft.insert S.draft L.draft) := by
  have hL := h.tail
  have hapart : ∀ i ∈ S.ids, i ∉ L.ids := fun i hi hmem =>
    h.not_mem hi (List.mem_flatMap_of_mem List.mem_cons_self hmem)
  have hspot : Spot a none S.ids L := ⟨hL.sketched, hL.nodup, hapart, nofun⟩
  refine (agree_pushSubtreeAt h.sketched h.root h.nodup hcomplete hspot hL.root
    (hL.sketched.length_ids_le hL.nodup)).imp ?_
  rintro a' d ⟨L', hgrown, hd, hroot⟩
  refine ⟨L', hL.tail.regrow hgrown (hroot.trans hL.root) fun i hi => ⟨?_, ?_⟩, hd⟩
  · exact fun hmem => hL.not_mem hmem hi
  · exact fun hmem => h.not_mem hmem (List.mem_append_right _ hi)

end Groups

/-! ## Reading on -/

/-- Reading into the arena fails for the same reason as reading on drafts, or ends with a layout of the
draft. -/
theorem agree_readOn {text : List Char} {groups : List (Nat × Layout)}
    (h : Groups a ((id, L) :: groups)) :
    Agree (fun r d => ∃ L', Groups r.2 [(r.1, L')] ∧ L'.draft = d ∧ d.isComplete = true)
      (a.readOn text id (groups.map (·.1)))
      (Draft.readOn text L.draft (groups.map (·.2.draft))) := by
  have hvalid := isValidSubtree_eq h.sketched h.root h.nodup
  induction text generalizing a id L groups with
  | nil =>
    rw [readOn.eq_def, Draft.readOn.eq_def]
    simp only [hvalid]
    cases groups with
    | nil =>
      cases hcomplete : L.draft.isComplete
      · exact .error _
      · exact .ok ⟨L, h, rfl, hcomplete⟩
    | cons g groups => exact .error _
  | cons c rest ih =>
    have ih : ∀ {a : Arena} {id : Nat} {L : Layout} {groups : List (Nat × Layout)},
        Groups a ((id, L) :: groups) → Agree _ (a.readOn rest id (groups.map (·.1)))
          (Draft.readOn rest L.draft (groups.map (·.2.draft))) := fun h =>
      ih h (isValidSubtree_eq h.sketched h.root h.nodup)
    rw [readOn.eq_def, Draft.readOn.eq_def]
    simp only [hvalid]
    by_cases hopen : c = openSign
    · rw [if_pos hopen, if_pos hopen]
      exact ih h.openGroup
    rw [if_neg hopen, if_neg hopen]
    by_cases hclose : c = closeSign
    · rw [if_pos hclose, if_pos hclose]
      cases groups with
      | nil => exact .error _
      | cons g groups =>
        cases hcomplete : L.draft.isComplete
        · exact .error _
        · have hraised : (L.raise groupBoost).draft.isComplete = true := by
            rw [Layout.draft_raise, Draft.isComplete_raise, hcomplete]
          have hpush := (h.raise groupBoost).agree_pushSubtree hraised
          rw [Layout.draft_raise] at hpush
          refine hpush.bind ?_
          rintro a' d ⟨L', hgroups, rfl⟩
          exact ih hgroups
    rw [if_neg hclose, if_neg hclose]
    cases hs : Symbol.ofSign? c with
    | none => exact .error _
    | some s =>
      refine (h.agree_push s).bind ?_
      rintro a' d ⟨L', hgroups, rfl⟩
      exact ih hgroups

end Arena

end RegularSets
