import RegularSets.Proofs.Expression.Arena

/-!
# Setting links and positions

When an expression has been read, its nodes have neither links nor positions. One pass over the nodes sets
the links, another one over the leaves sets the positions. Both go through the operands of a node one after
the other, and what a pass does to an operand it does to the nodes of this operand only (`Rewritten`), so
that each pass is followed by induction on the layout.

In the end a tree holds a layout with all links and positions (`ThreadedTree.Holds`), whose draft is what
the reading on drafts gives (`ThreadedTree.agree_read`).
-/

namespace RegularSets

/-! ## The walk in order -/

namespace Layout

variable {L l r : Layout} {id i p : Nat} {k : Connective}

/-- The nodes in order: an operand before its modifier, a binary operator between its operands. -/
def walk : Layout → List Nat
  | hole => []
  | empty id => [id]
  | atom id _ => [id]
  | modify id _ _ d => d.walk ++ [id]
  | join id _ _ l r => l.walk ++ id :: r.walk

/-- The leaves from left to right. -/
def leaves : Layout → List Nat
  | hole => []
  | empty _ => []
  | atom id _ => [id]
  | modify _ _ _ d => d.leaves
  | join _ _ _ l r => l.leaves ++ r.leaves

theorem perm_walk : L.walk.Perm L.ids := by
  induction L with
  | hole => exact .refl _
  | empty => exact .refl _
  | atom => exact .refl _
  | modify id m p d ih => exact (List.perm_append_singleton _ _).trans (ih.cons _)
  | join id k p l r ihl ihr => exact List.perm_middle.trans ((ihl.append ihr).cons _)

theorem mem_walk : i ∈ L.walk ↔ i ∈ L.ids :=
  perm_walk.mem_iff

theorem length_leaves : L.leaves.length = L.draft.numAtoms := by
  induction L with
  | hole => rfl
  | empty => rfl
  | atom => rfl
  | modify id m p d ih => exact ih
  | join id k p l r ihl ihr => rw [leaves, List.length_append, ihl, ihr, draft, Draft.numAtoms]

theorem exists_root?_eq (h : L.draft.isComplete = true) : ∃ id, L.root? = some id := by
  cases L with
  | hole => cases h
  | empty => cases h
  | _ => exact ⟨_, rfl⟩

/-- With both operands the walk ends where it ends in the right one. -/
theorem getLast?_walk_join (h : r.root? = some i) :
    (join id k p l r).walk.getLast? = r.walk.getLast? := by
  have hne : r.walk ≠ [] := List.ne_nil_of_mem (mem_walk.mpr (mem_ids_of_root? h))
  rw [walk, List.getLast?_append_of_ne_nil _ (List.cons_ne_nil _ _), List.getLast?_cons_of_ne_nil hne]

end Layout

namespace Arena

variable {a a₁ a' : Arena} {L l r d : Layout} {parent next next' position : Option Nat} {linked : Bool}
  {id i p start fuel : Nat} {m : Modifier} {k : Connective}

/-- The walk in order ends where the way right ends. -/
theorem getLast?_walk (h : a.Draws linked parent next position L) (hcomplete : L.draft.isComplete = true)
    (hroot : L.root? = some id) (hfuel : L.ids.length ≤ fuel) :
    L.walk.getLast? = some (a.descend (fun _ => true) fuel id) := by
  induction L generalizing parent next position id fuel with
  | hole => cases hroot
  | empty => cases hcomplete
  | atom j x =>
    cases hroot
    rw [descend_of_right_eq_none (by rw [h.2])]
    rfl
  | modify j m p d =>
    cases hroot
    rw [descend_of_right_eq_none (by rw [h.1.2]), Layout.walk, List.getLast?_concat]
  | join j k p l r _ ihr =>
    cases hroot
    have hr := (Bool.and_eq_true_iff.mp hcomplete).2
    obtain ⟨i, hi⟩ := Layout.exists_root?_eq hr
    have hstep : ∃ rest, r.ids.length ≤ rest ∧
        a.descend (fun _ => true) fuel j = a.descend (fun _ => true) rest i :=
      exists_descend_eq h hi rfl hfuel
    obtain ⟨rest, hrest, heq⟩ := hstep
    rw [Layout.getLast?_walk_join hi, heq, ihr h.2.2 hr hi hrest]

theorem getLast?_walk_eq_rightmost (h : a.Draws linked parent next position L)
    (hcomplete : L.draft.isComplete = true) (hroot : L.root? = some id) (hnodup : L.ids.Nodup) :
    L.walk.getLast? = some (a.rightmost id) :=
  getLast?_walk h hcomplete hroot (h.length_ids_le hnodup)

/-- The node where the walk ends may get another link. -/
theorem Draws.relink (h : a.Draws linked parent next position L) (hcomplete : L.draft.isComplete = true)
    (hnodup : L.ids.Nodup) (hsize : a.size ≤ a'.size)
    (hlast : ∀ i, L.walk.getLast? = some i → a'.node i = { a.node i with link := next' })
    (hothers : ∀ i ∈ L.ids, L.walk.getLast? ≠ some i → a'.node i = a.node i) :
    a'.Draws linked parent next' position L := by
  induction L generalizing parent next position with
  | hole => trivial
  | empty => cases hcomplete
  | atom id x =>
    refine ⟨Nat.lt_of_lt_of_le h.1 hsize, ?_⟩
    rw [hlast id rfl, h.2]
  | modify id m p d =>
    have hend : (Layout.modify id m p d).walk.getLast? = some id := List.getLast?_concat
    refine ⟨⟨Nat.lt_of_lt_of_le h.1.1 hsize, ?_⟩, h.2.of_eq hsize fun i hi => ?_⟩
    · rw [hlast id hend, h.1.2]
    · refine hothers i (List.mem_cons_of_mem _ hi) fun heq => (List.nodup_cons.mp hnodup).1 ?_
      cases hend.symm.trans heq
      exact hi
  | join id k p l r _ ihr =>
    obtain ⟨⟨-, hid⟩, -, hrnodup, hdisjoint⟩ := Layout.nodup_join.mp hnodup
    have hr := (Bool.and_eq_true_iff.mp hcomplete).2
    obtain ⟨j, hj⟩ := Layout.exists_root?_eq hr
    rw [Layout.getLast?_walk_join hj] at hlast hothers
    -- the walk ends in the right operand, so the rest stays as it is
    have hend : ∀ i, r.walk.getLast? = some i → i ∈ r.ids := fun i hi =>
      Layout.mem_walk.mp (List.mem_of_getLast? hi)
    refine ⟨⟨Nat.lt_of_lt_of_le h.1.1 hsize, ?_⟩, h.2.1.of_eq hsize fun i hi => ?_,
      ihr h.2.2 hr hrnodup hlast fun i hi => ?_⟩
    · rw [hothers id List.mem_cons_self fun heq => hid (hend id heq), h.1.2]
    · exact hothers i (List.mem_cons_of_mem _ (List.mem_append_left _ hi)) fun heq =>
        hdisjoint hi (hend i heq)
    · exact hothers i (List.mem_cons_of_mem _ (List.mem_append_right _ hi))

/-! ## What a pass does -/

/-- A pass has changed nodes of a layout only, and now the layout is drawn as it says here. -/
structure Rewritten (a a' : Arena) (linked : Bool) (parent next position : Option Nat) (L : Layout) :
    Prop where
  size_eq : a'.size = a.size
  frame : ∀ i ∉ L.ids, a'.node i = a.node i
  draws : a'.Draws linked parent next position L

namespace Rewritten

theorem trans {linked' : Bool} {parent' position' : Option Nat}
    (h : Rewritten a a₁ linked parent next position L)
    (h' : Rewritten a₁ a' linked' parent' next' position' L) :
    Rewritten a a' linked' parent' next' position' L where
  size_eq := h'.size_eq.trans h.size_eq
  frame i hi := (h'.frame i hi).trans (h.frame i hi)
  draws := h'.draws

/-- What lies apart from the layout stays drawn. -/
theorem draws_of_disjoint {linked' : Bool} {parent' position' : Option Nat}
    (h : Rewritten a a' linked parent next position L)
    (hr : a.Draws linked' parent' next' position' r) (hdisjoint : r.ids.Disjoint L.ids) :
    a'.Draws linked' parent' next' position' r :=
  hr.of_eq (Nat.le_of_eq h.size_eq.symm) fun i hi => h.frame i (hdisjoint hi)

theorem modify (hlt : id < a.size)
    (hnode : a.node id = { data := some (.operator (.modifier m)), priority := p, left := d.root?, parent,
                           link := next })
    (hd : Rewritten a a' linked (some id) (if linked then some id else none) position d)
    (hid : id ∉ d.ids) : Rewritten a a' linked parent next position (.modify id m p d) where
  size_eq := hd.size_eq
  frame i hi := hd.frame i (List.not_mem_of_not_mem_cons hi)
  draws := ⟨⟨hd.size_eq ▸ hlt, (hd.frame id hid).trans hnode⟩, hd.draws⟩

theorem join (hlt : id < a.size)
    (hnode : a.node id = { data := some (.operator (.connective k)), priority := p, left := l.root?,
                           right := r.root?, parent })
    (hl : Rewritten a a₁ linked (some id) (if linked then some id else none) position l)
    (hr : Rewritten a₁ a' linked (some id) next (position.map (· + l.draft.numAtoms)) r)
    (hnodup : (Layout.join id k p l r).ids.Nodup) :
    Rewritten a a' linked parent next position (.join id k p l r) where
  size_eq := hr.size_eq.trans hl.size_eq
  frame i hi := by
    obtain ⟨hil, hir⟩ := not_or.mp (mt List.mem_append.mpr (List.not_mem_of_not_mem_cons hi))
    exact (hr.frame i hir).trans (hl.frame i hil)
  draws := by
    obtain ⟨⟨hidl, hidr⟩, -, -, hdisjoint⟩ := Layout.nodup_join.mp hnodup
    refine ⟨⟨?_, ?_⟩, hr.draws_of_disjoint hl.draws hdisjoint, hr.draws⟩
    · rw [hr.size_eq, hl.size_eq]
      exact hlt
    · rw [hr.frame id hidr, hl.frame id hidl, hnode]

end Rewritten

/-! ## Links -/

/-- Setting the link that leads to an operator changes the left operand only: its right end is linked. -/
theorem rewritten_setLink (hleft : (a.node id).left = d.root?)
    (h : a.Draws linked parent next position d) (hcomplete : d.draft.isComplete = true)
    (hnodup : d.ids.Nodup) : Rewritten a (a.setLink id) linked parent (some id) position d := by
  obtain ⟨j, hj⟩ := Layout.exists_root?_eq hcomplete
  have hend := getLast?_walk_eq_rightmost h hcomplete hj hnodup
  have hmem : a.rightmost j ∈ d.ids := Layout.mem_walk.mp (List.mem_of_getLast? hend)
  have hset : a.setLink id = a.update (a.rightmost j) fun n => { n with link := some id } := by
    rw [setLink, hleft, hj]
  rw [hset]
  refine
    { size_eq := size_update
      frame := fun i hi => node_update_of_ne (ne_of_mem_of_not_mem hmem hi).symm
      draws := h.relink hcomplete hnodup (Nat.le_of_eq size_update.symm) (fun i hi => ?_)
        fun i _ hne => node_update_of_ne fun heq => hne (heq ▸ hend) }
  cases hend.symm.trans hi
  exact node_update_self (h.lt_size _ hmem)

theorem rewritten_setLinks (h : a.Draws false parent next position L)
    (hcomplete : L.draft.isComplete = true) (hnodup : L.ids.Nodup) :
    Rewritten a (L.ids.foldl setLink a) true parent next position L := by
  induction L generalizing a parent next position with
  | hole => cases hcomplete
  | empty => cases hcomplete
  | atom id x =>
    have hset : a.setLink id = a := by rw [setLink, h.2]
    rw [Layout.ids, List.foldl_cons, List.foldl_nil, hset]
    exact ⟨rfl, fun _ _ => rfl, h⟩
  | modify id m p d ih =>
    obtain ⟨hid, hdnodup⟩ := List.nodup_cons.mp hnodup
    have hlink := rewritten_setLink (by rw [h.1.2]) h.2 hcomplete hdnodup
    exact .modify h.1.1 h.1.2 (hlink.trans (ih hlink.draws hcomplete hdnodup)) hid
  | join id k p l r ihl ihr =>
    obtain ⟨hl, hr⟩ := Bool.and_eq_true_iff.mp hcomplete
    obtain ⟨-, hlnodup, hrnodup, hdisjoint⟩ := Layout.nodup_join.mp hnodup
    have hlink := rewritten_setLink (by rw [h.1.2]) h.2.1 hl hlnodup
    have hleft := hlink.trans (ihl hlink.draws hl hlnodup)
    have hright := hleft.draws_of_disjoint h.2.2 (List.disjoint_symm hdisjoint)
    rw [Layout.ids, List.foldl_cons, List.foldl_append]
    exact .join h.1.1 h.1.2 hleft (ihr hright hr hrnodup) hnodup

/-! ## Positions -/

/-- The leaves are listed in the same order in preorder and in order. -/
theorem filter_isLeaf (h : a.Draws linked parent next position L)
    (hcomplete : L.draft.isComplete = true) :
    L.ids.filter (fun i => (a.node i).isLeaf) = L.leaves ∧
      L.walk.filter (fun i => (a.node i).isLeaf) = L.leaves := by
  induction L generalizing parent next position with
  | hole => exact ⟨rfl, rfl⟩
  | empty => cases hcomplete
  | atom id x =>
    have hleaf : (a.node id).isLeaf = true := by
      rw [h.2]
      rfl
    exact ⟨List.filter_cons_of_pos hleaf, List.filter_cons_of_pos hleaf⟩
  | modify id m p d ih =>
    obtain ⟨i, hi⟩ := Layout.exists_root?_eq (L := d) hcomplete
    have hinner : ∀ ids, (id :: ids).filter (fun i => (a.node i).isLeaf) =
        ids.filter fun i => (a.node i).isLeaf := fun ids =>
      List.filter_cons_of_neg (by simp [h.1.2, Node.isLeaf, hi])
    obtain ⟨hids, hwalk⟩ := ih h.2 hcomplete
    rw [Layout.ids, Layout.walk, List.filter_append, hwalk, hinner, hinner]
    exact ⟨hids, List.append_nil _⟩
  | join id k p l r ihl ihr =>
    obtain ⟨hl, hr⟩ := Bool.and_eq_true_iff.mp hcomplete
    obtain ⟨i, hi⟩ := Layout.exists_root?_eq hl
    have hinner : ∀ ids, (id :: ids).filter (fun i => (a.node i).isLeaf) =
        ids.filter fun i => (a.node i).isLeaf := fun ids =>
      List.filter_cons_of_neg (by simp [h.1.2, Node.isLeaf, hi])
    obtain ⟨hlids, hlwalk⟩ := ihl h.2.1 hl
    obtain ⟨hrids, hrwalk⟩ := ihr h.2.2 hr
    rw [Layout.ids, Layout.walk, List.filter_append, hinner, hinner, List.filter_append, hlids, hlwalk,
      hrids, hrwalk]
    exact ⟨rfl, rfl⟩

theorem leaves_eq (h : a.Draws linked parent next position L) (hcomplete : L.draft.isComplete = true)
    (hroot : L.root? = some id) (hnodup : L.ids.Nodup) : a.leaves id = L.leaves := by
  rw [leaves, subtree_eq h hroot hnodup, (filter_isLeaf h hcomplete).1]

theorem rewritten_setIndexes (h : a.Draws linked parent next position L)
    (hcomplete : L.draft.isComplete = true) (hnodup : L.ids.Nodup) (start : Nat) :
    Rewritten a ((L.leaves.zipIdx start).foldl setIndex a) linked parent next (some start) L := by
  induction L generalizing a parent next position start with
  | hole => cases hcomplete
  | empty => cases hcomplete
  | atom id x =>
    refine ⟨size_update, fun i hi => node_update_of_ne (List.ne_of_not_mem_cons hi), ?_⟩
    refine ⟨Nat.lt_of_lt_of_eq h.1 size_update.symm, (node_update_self h.1).trans ?_⟩
    rw [h.2]
  | modify id m p d ih =>
    obtain ⟨hid, hdnodup⟩ := List.nodup_cons.mp hnodup
    exact .modify h.1.1 h.1.2 (ih h.2 hcomplete hdnodup start) hid
  | join id k p l r ihl ihr =>
    obtain ⟨hl, hr⟩ := Bool.and_eq_true_iff.mp hcomplete
    obtain ⟨-, hlnodup, hrnodup, hdisjoint⟩ := Layout.nodup_join.mp hnodup
    have hleft := ihl h.2.1 hl hlnodup start
    have hright := hleft.draws_of_disjoint h.2.2 (List.disjoint_symm hdisjoint)
    rw [Layout.leaves, List.zipIdx_append, List.foldl_append, Layout.length_leaves]
    exact .join h.1.1 h.1.2 hleft (ihr hright hr hrnodup _) hnodup

end Arena

/-! ## The tree of a text -/

namespace ThreadedTree

/-- The tree is a layout without holes, and has all its links and positions. -/
structure Holds (t : ThreadedTree) (L : Layout) : Prop where
  root : L.root? = some t.root
  nodup : L.ids.Nodup
  complete : L.draft.isComplete = true
  drawn : t.arena.Draws true none none (some 1) L

open Arena in
theorem holds_of_groups {text : List Char} {a : Arena} {root : Nat} {L : Layout}
    (h : Groups a [(root, L)]) (hcomplete : L.draft.isComplete = true) :
    Holds { text, arena := (a.setLinks root).setIndexes root, root } L := by
  have hids : a.subtree root = L.ids := subtree_eq h.sketched h.root h.nodup
  have hlinks : Rewritten a (a.setLinks root) true none none none L := by
    rw [setLinks, hids]
    exact rewritten_setLinks h.sketched hcomplete h.nodup
  have hindexes := rewritten_setIndexes hlinks.draws hcomplete h.nodup 1
  rw [← leaves_eq hlinks.draws hcomplete h.root h.nodup] at hindexes
  exact ⟨h.root, h.nodup, hcomplete, hindexes.draws⟩

open Arena in
/-- A text is read into an arena if it is read into a draft, and the arena holds the draft then. -/
theorem agree_read (text : List Char) :
    Agree (fun t d => t.text = text ∧ ∃ L, t.Holds L ∧ L.draft = d) (read text)
      ((Draft.read text).mapError (.invalidRegex (String.ofList text))) := by
  have hnil : Groups {} [] := ⟨nofun, List.nodup_nil⟩
  have hreading : Agree _ (({} : Arena).newNode.2.readOn text ({} : Arena).newNode.1 [])
      (Draft.readOn text .hole []) := agree_readOn hnil.openGroup
  rw [read, Draft.read]
  cases hnew : ({} : Arena).newNode with
  | mk group a =>
    rw [hnew] at hreading
    dsimp only at hreading ⊢
    generalize a.readOn text group [] = result at hreading ⊢
    generalize Draft.readOn text .hole [] = result' at hreading ⊢
    cases hreading with
    | error cause => exact .error _
    | @ok result d fits =>
      obtain ⟨L, hgroups, rfl, hcomplete⟩ := fits
      exact .ok ⟨rfl, L, holds_of_groups hgroups hcomplete, rfl⟩

end ThreadedTree

end RegularSets
