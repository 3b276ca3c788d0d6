import RegularSets.Proofs.Expression.Linking
import RegularSets.Proofs.Expression.Places

/-!
# Reading a tree back

The tree that is read back from an arena is the one that is made of the draft (`Arena.tree?_eq`), so what a
text is read into can be told without an arena (`ExpressionTree.read_eq`).

Nothing is lost when the arena is forgotten. The places of the tree stand for the nodes of the arena, both
in preorder, and every field of a node is told by its place (`ThreadedTree.shows_of_read`): its operands,
its link and its position, and where it is an operand itself. In particular a walk goes on after a place
where the link of its right end leads.
-/

namespace RegularSets

/-! ## The tree -/

namespace Agree

variable {ε α β : Type} {Fits : α → β → Prop} {x : Except ε α} {y : β} {e : ε}

theorem eq_error (h : Agree Fits x (.error e)) : x = .error e := by
  cases h
  rfl

theorem exists_eq_ok (h : Agree Fits x (.ok y)) : ∃ a, x = .ok a ∧ Fits a y := by
  cases h with
  | ok fits => exact ⟨_, rfl, fits⟩

end Agree

theorem Layout.length_ids {L : Layout} (h : L.draft.isComplete = true) : L.ids.length = L.draft.size := by
  induction L with
  | hole => cases h
  | empty => cases h
  | atom => rfl
  | modify id m p d ih => exact congrArg Nat.succ (ih h)
  | join id k p l r ihl ihr =>
    obtain ⟨hl, hr⟩ := Bool.and_eq_true_iff.mp h
    rw [ids, List.length_cons, List.length_append, ihl hl, ihr hr, draft, Draft.size]

namespace Arena

variable {a : Arena} {L : Layout} {parent next : Option Nat} {position fuel n : Nat}

/-- A layout is read back as the tree of its draft. -/
theorem tree?_eq (h : a.Draws true parent next (some position) L) (hfuel : L.ids.length ≤ fuel) :
    (L.root?.bind fun id => a.tree? fuel n id) = L.draft.toTree? n position := by
  induction L generalizing parent next position fuel n with
  | hole => rfl
  | empty id =>
    obtain ⟨fuel, rfl⟩ := Nat.exists_eq_add_one.mpr hfuel
    simp [tree?, h.2.2, Layout.draft, Draft.toTree?]
  | atom id x =>
    obtain ⟨fuel, rfl⟩ := Nat.exists_eq_add_one.mpr hfuel
    simp [tree?, h.2, Layout.draft, Draft.toTree?]
  | modify id m p d ih =>
    obtain ⟨fuel, rfl⟩ := Nat.exists_eq_add_one.mpr (Nat.lt_of_lt_of_le (Nat.succ_pos _) hfuel)
    have hd := ih (n := n + 1) h.2 (Nat.le_of_succ_le_succ hfuel)
    simp only [Layout.root?_modify, Option.bind_some, tree?, h.1.2, Layout.draft, Draft.toTree?, ← hd]
    cases d.root? <;> rfl
  | join id k p l r ihl ihr =>
    obtain ⟨fuel, rfl⟩ := Nat.exists_eq_add_one.mpr (Nat.lt_of_lt_of_le (Nat.succ_pos _) hfuel)
    rw [Layout.ids, List.length_cons, List.length_append] at hfuel
    have hl := ihl (n := n + 1) h.2.1 (by omega : l.ids.length ≤ fuel)
    have hr := ihr (n := n + 1 + l.draft.size) h.2.2 (by omega : r.ids.length ≤ fuel)
    simp only [Layout.root?_join, Option.bind_some, tree?, h.1.2, Layout.draft, Draft.toTree?]
    cases hleft : l.draft.toTree? (n + 1) position with
    | none =>
      rw [hleft] at hl
      cases hi : l.root? with
      | none => rfl
      | some i =>
        rw [hi, Option.bind_some] at hl
        simp only [Option.bind_eq_bind, Option.bind_some, hl, Option.bind_none]
    | some left =>
      have hsize : left.size = l.draft.size := (Draft.numbered_of_toTree? hleft).2.1
      rw [hleft] at hl
      obtain ⟨i, hi, htree⟩ := Option.bind_eq_some_iff.mp hl
      rw [hi]
      simp only [Option.bind_eq_bind, Option.bind_some, htree, hsize, ← hr]
      cases r.root? <;> rfl

end Arena

/-- What is read into an arena is a layout of what is read into a draft. -/
theorem ThreadedTree.exists_holds_of_read {t : ThreadedTree} {text : List Char} (h : read text = .ok t) :
    t.text = text ∧ ∃ L, t.Holds L ∧ Draft.read text = .ok L.draft := by
  have hagree := agree_read text
  rw [h] at hagree
  cases hd : Draft.read text with
  | error cause =>
    rw [hd] at hagree
    cases hagree
  | ok d =>
    rw [hd] at hagree
    cases hagree with
    | ok fits =>
      obtain ⟨htext, L, hL, rfl⟩ := fits
      exact ⟨htext, L, hL, rfl⟩

/-- Reading without an arena. -/
theorem ExpressionTree.read_eq (text : List Char) : read text =
    match Draft.read text with
    | .error cause => .error (.invalidRegex (String.ofList text) cause)
    | .ok d =>
      match d.toTree? 0 1 with
      | none => .error (.invalidRegex (String.ofList text) .incompleteExpression)
      | some root => .ok { text, root } := by
  have hagree := ThreadedTree.agree_read text
  rw [read]
  cases hd : Draft.read text with
  | error cause =>
    rw [hd] at hagree
    rw [hagree.eq_error]
    rfl
  | ok d =>
    rw [hd] at hagree
    obtain ⟨t, ht, -, L, hL, rfl⟩ := hagree.exists_eq_ok
    have htree := Arena.tree?_eq (n := 0) hL.drawn (hL.drawn.length_ids_le hL.nodup)
    rw [hL.root, Option.bind_some] at htree
    rw [ht]
    simp only [← htree]
    rfl

/-! ## The places of the tree -/

namespace Place

/-- The node at the right end of a subtree is left as the subtree is. -/
theorem link?_rightmost (p : Place) : p.rightmost.link? = p.following? := by
  have hright : p.rightmost.right? = none := by
    obtain ⟨subtree, rs⟩ := p
    induction subtree with
    | atom a m j => rfl
    | modify m k j d ih => rfl
    | join c k j left right ihl ihr => exact ihr
  rw [link?, hright]
  rfl

theorem mem_places_rightmost {t : Tree} {returns : List Tree} {p : Place}
    (hp : p ∈ t.places returns) : p.rightmost ∈ t.places returns := by
  obtain ⟨subtree, rs⟩ := p
  induction subtree with
  | atom a m j => exact hp
  | modify m k j d ih => exact hp
  | join c k j left right ihl ihr => exact ihr (Tree.mem_places_right? hp rfl)

end Place

namespace Arena

/-- Everything that is stored at the node of a place is told by the place, and its operands are stored
with the node as their parent. -/
structure Shows (a : Arena) (nodeOf : Place → Nat) (p : Place) : Prop where
  node_eq : { a.node (nodeOf p) with parent := none } =
    { data := some p.subtree.symbol, priority := p.subtree.priority, left := p.left?.map nodeOf,
      right := p.right?.map nodeOf, link := p.link?.map nodeOf, index := p.subtree.position? }
  parent_left : ∀ q, p.left? = some q → (a.node (nodeOf q)).parent = some (nodeOf p)
  parent_right : ∀ q, p.right? = some q → (a.node (nodeOf q)).parent = some (nodeOf p)

variable {a : Arena} {L : Layout} {t : Tree} {returns : List Tree} {nodeOf : Place → Nat} {p : Place}
  {parent next : Option Nat} {position fuel n : Nat}

theorem root?_of_map_places (h : (t.places returns).map nodeOf = L.ids) :
    L.root? = some (nodeOf ⟨t, returns⟩) := by
  have hplaces : (t.places returns).head? = some ⟨t, returns⟩ := by cases t <;> rfl
  have hids : L.root? = L.ids.head? := by cases L <;> rfl
  rw [hids, ← h, List.head?_map, hplaces]
  rfl

/-- A layout shows the tree of its draft, if the places have the nodes of the layout in preorder and the
link of the layout leads where the tree is left. -/
theorem shows_of_draws (h : a.Draws true parent next (some position) L)
    (hcomplete : L.draft.isComplete = true) (ht : L.draft.toTree? n position = some t)
    (hnodes : (t.places returns).map nodeOf = L.ids)
    (hnext : next = (Place.following? ⟨t, returns⟩).map nodeOf) :
    ∀ p ∈ t.places returns, a.Shows nodeOf p := by
  induction L generalizing parent next position n t returns with
  | hole => cases ht
  | empty => cases ht
  | atom id x =>
    cases ht
    obtain ⟨hid, -⟩ := List.cons_eq_cons.mp hnodes
    refine List.forall_mem_singleton.mpr ⟨?_, nofun, nofun⟩
    rw [hid, h.2, hnext]
    rfl
  | modify id m pr d ih =>
    obtain ⟨u, hu, heq⟩ := Option.bind_eq_some_iff.mp ht
    cases heq
    obtain ⟨hid, hd⟩ := List.cons_eq_cons.mp hnodes
    have hroot := root?_of_map_places hd
    refine List.forall_mem_cons.mpr ⟨⟨?_, ?_, nofun⟩, ih h.2 hcomplete hu hd (congrArg some hid.symm)⟩
    · rw [hid, h.1.2, hroot, hnext]
      rfl
    · rintro q ⟨⟩
      rw [hid]
      exact h.2.parent_root hroot
  | join id k pr l r ihl ihr =>
    obtain ⟨u, hu, heq⟩ := Option.bind_eq_some_iff.mp ht
    obtain ⟨v, hv, heq⟩ := Option.bind_eq_some_iff.mp heq
    cases heq
    obtain ⟨hl, hr⟩ := Bool.and_eq_true_iff.mp hcomplete
    obtain ⟨hid, hoperands⟩ := List.cons_eq_cons.mp hnodes
    rw [List.map_append] at hoperands
    obtain ⟨hlnodes, hrnodes⟩ := List.append_inj hoperands (by
      rw [List.length_map, Tree.length_places, Layout.length_ids hl, (Draft.numbered_of_toTree? hu).2.1])
    have hlroot := root?_of_map_places hlnodes
    have hrroot := root?_of_map_places hrnodes
    refine List.forall_mem_cons.mpr ⟨⟨?_, ?_, ?_⟩, List.forall_mem_append.mpr
      ⟨ihl h.2.1 hl hu hlnodes (congrArg some hid.symm), ihr h.2.2 hr hv hrnodes hnext⟩⟩
    · rw [hid, h.1.2, hlroot, hrroot]
      rfl
    · rintro q ⟨⟩
      rw [hid]
      exact h.2.1.parent_root hlroot
    · rintro q ⟨⟩
      rw [hid]
      exact h.2.2.parent_root hrroot

section Shown

variable (h : ∀ p ∈ t.places returns, a.Shows nodeOf p)

include h

theorem descend_eq_of_shows (hp : p ∈ t.places returns) (hfuel : p.subtree.size ≤ fuel) :
    a.descend (fun _ => true) fuel (nodeOf p) = nodeOf p.rightmost := by
  obtain ⟨subtree, rs⟩ := p
  induction subtree generalizing fuel with
  | atom x m i =>
    exact descend_of_right_eq_none (congrArg Node.right (h _ hp).node_eq)
  | modify m k j d =>
    exact descend_of_right_eq_none (congrArg Node.right (h _ hp).node_eq)
  | join c k j l r _ ihr =>
    obtain ⟨fuel, rfl⟩ := Nat.exists_eq_add_one.mpr (Nat.lt_of_lt_of_le (Nat.succ_pos _) hfuel)
    rw [Tree.size] at hfuel
    rw [descend_succ (congrArg Node.right (h _ hp).node_eq) rfl]
    exact ihr (Tree.mem_places_right? hp rfl) (by omega : r.size ≤ fuel)

end Shown

end Arena

namespace ThreadedTree

variable {t : ThreadedTree} {text : List Char}

/-- The node of a place. Places are numbered as the nodes are listed. -/
def nodeOf (t : ThreadedTree) (p : Place) : Nat :=
  t.nodes.getD p.subtree.number t.root

/-- **Forgetting the arena.** A text that is read into an arena is read into a tree. Its places stand for
the nodes in preorder and tell everything that is stored there, the root has no parent, and the link at the
right end of a subtree leads where a walk goes on after the place. -/
theorem shows_of_read (h : read text = .ok t) :
    ∃ u, ExpressionTree.read text = .ok u ∧ (u.root.places []).map t.nodeOf = t.nodes ∧
      (t.arena.node t.root).parent = none ∧
      ∀ p ∈ u.root.places [], t.arena.Shows t.nodeOf p ∧
        t.arena.rightmost (t.nodeOf p) = t.nodeOf p.rightmost ∧
        (t.arena.node (t.arena.rightmost (t.nodeOf p))).link = p.following?.map t.nodeOf := by
  obtain ⟨-, L, hL, hread⟩ := exists_holds_of_read h
  obtain ⟨e, he⟩ := Draft.exists_expression?_eq hL.complete
  obtain ⟨root, hroot, -⟩ := Draft.toTree?_of_expression? he 0 1
  obtain ⟨hnumbered, hsize, -⟩ := Draft.numbered_of_toTree? hroot
  have hfuel : root.size ≤ t.arena.size := by
    rw [hsize, ← Layout.length_ids hL.complete]
    exact hL.drawn.length_ids_le hL.nodup
  have hids : t.nodes = L.ids := Arena.subtree_eq hL.drawn hL.root hL.nodup
  have hnodes : (root.places []).map t.nodeOf = t.nodes := by
    have hlength : t.nodes.length = root.size := by rw [hids, Layout.length_ids hL.complete, hsize]
    have hmap : (root.places []).map t.nodeOf = (List.range' 0 root.size).map (t.nodes.getD · t.root) := by
      rw [← Tree.numbers_places hnumbered, List.map_map]
      rfl
    rw [hmap, ← hlength]
    refine List.ext_getElem (by simp) fun i _ hi => ?_
    simp [List.getElem?_eq_getElem hi]
  have hshows := Arena.shows_of_draws hL.drawn hL.complete hroot (hnodes.trans hids) rfl
  refine ⟨⟨text, root⟩, ?_, hnodes, hL.drawn.parent_root hL.root, fun p hp => ?_⟩
  · rw [ExpressionTree.read_eq, hread]
    simp only [hroot]
  · have hright : t.arena.rightmost (t.nodeOf p) = t.nodeOf p.rightmost :=
      Arena.descend_eq_of_shows hshows hp (Nat.le_trans (Tree.size_le_of_mem_places hp) hfuel)
    refine ⟨hshows p hp, hright, ?_⟩
    rw [hright, ← Place.link?_rightmost]
    exact congrArg Node.link (hshows _ (Place.mem_places_rightmost hp)).node_eq

end ThreadedTree

end RegularSets
