import Mathlib.Data.List.Nodup
import Mathlib.Data.List.Perm.Subperm
import RegularSets.Expression.Arena
import RegularSets.Expression.Draft

/-!
# Trees laid out in an arena

A layout is a draft that says which nodes stand for it. An arena draws a layout (`Arena.Draws`) if each of
these nodes is exactly what the layout asks for, all its references included. Other nodes of the arena do
not matter, so a layout stays drawn as long as its own nodes do not change (`Draws.of_eq`), and the arena
may hold several layouts side by side.

While an expression is read, no node has a link or a position. In the end each node has the link and each
leaf has the position that belongs there; `Draws` covers both, and the stages between them.
-/

namespace RegularSets

/-- A draft and the nodes that stand for it. A missing operand has no node; an empty node is one that was
made and is not filled yet. -/
inductive Layout
  | hole
  | empty (id : Nat)
  | atom (id : Nat) (x : Atom)
  | modify (id : Nat) (m : Modifier) (priority : Nat) (operand : Layout)
  | join (id : Nat) (k : Connective) (priority : Nat) (left right : Layout)

theorem Draft.ne_hole {d : Draft} (h : d.isComplete = true) : d ≠ .hole := by
  rintro rfl
  cases h

namespace Layout

def root? : Layout → Option Nat
  | hole => none
  | empty id => some id
  | atom id _ => some id
  | modify id _ _ _ => some id
  | join id _ _ _ _ => some id

/-- The nodes, each before its children. -/
def ids : Layout → List Nat
  | hole => []
  | empty id => [id]
  | atom id _ => [id]
  | modify id _ _ d => id :: d.ids
  | join id _ _ l r => id :: (l.ids ++ r.ids)

/-- What is left when the nodes are forgotten. -/
def draft : Layout → Draft
  | hole => .hole
  | empty _ => .hole
  | atom _ x => .atom x
  | modify _ m p d => .modify m p d.draft
  | join _ k p l r => .join k p l.draft r.draft

section Root

variable {id p : Nat} {x : Atom} {m : Modifier} {k : Connective} {d l r : Layout}

@[simp]
theorem root?_empty : (empty id).root? = some id :=
  rfl

@[simp]
theorem root?_atom : (atom id x).root? = some id :=
  rfl

@[simp]
theorem root?_modify : (modify id m p d).root? = some id :=
  rfl

@[simp]
theorem root?_join : (join id k p l r).root? = some id :=
  rfl

end Root

/-- The layout with the priorities of its operators raised. -/
def raise (amount : Nat) : Layout → Layout
  | hole => hole
  | empty id => empty id
  | atom id x => atom id x
  | modify id m p d => modify id m (p + amount) (d.raise amount)
  | join id k p l r => join id k (p + amount) (l.raise amount) (r.raise amount)

@[simp]
theorem root?_raise {L : Layout} {amount : Nat} : (L.raise amount).root? = L.root? := by
  cases L <;> rfl

@[simp]
theorem ids_raise {L : Layout} {amount : Nat} : (L.raise amount).ids = L.ids := by
  induction L with
  | hole => rfl
  | empty => rfl
  | atom => rfl
  | modify id m p d ih => rw [raise, ids, ids, ih]
  | join id k p l r ihl ihr => rw [raise, ids, ids, ihl, ihr]

@[simp]
theorem draft_raise {L : Layout} {amount : Nat} : (L.raise amount).draft = L.draft.raise amount := by
  induction L with
  | hole => rfl
  | empty => rfl
  | atom => rfl
  | modify id m p d ih => rw [raise, draft, draft, ih, Draft.raise]
  | join id k p l r ihl ihr => rw [raise, draft, draft, ihl, ihr, Draft.raise]

theorem mem_ids_of_root? {L : Layout} {id : Nat} (h : L.root? = some id) : id ∈ L.ids := by
  cases L with
  | hole => cases h
  | _ => cases h; exact List.mem_cons_self

theorem eq_hole {L : Layout} (h : L.root? = none) : L = .hole := by
  cases L <;> first | rfl | cases h

theorem root?_toList_sublist (L : Layout) : L.root?.toList.Sublist L.ids := by
  cases L with
  | hole => exact .slnil
  | _ => exact (List.nil_sublist _).cons_cons _

theorem ids_eq_cons {L : Layout} {id : Nat} (h : L.root? = some id) : L.ids = id :: L.ids.tail := by
  cases L <;> cases h <;> rfl

theorem nodup_join {id p : Nat} {k : Connective} {l r : Layout} :
    (join id k p l r).ids.Nodup ↔
      (id ∉ l.ids ∧ id ∉ r.ids) ∧ l.ids.Nodup ∧ r.ids.Nodup ∧ l.ids.Disjoint r.ids := by
  rw [ids, List.nodup_cons, List.mem_append, not_or, List.nodup_append']

end Layout

namespace Arena

variable {a a' : Arena} {L l r d : Layout} {parent next position : Option Nat} {linked : Bool}
  {id i j : Nat} {f : Node → Node}

/-! ## Nodes -/

@[simp]
theorem size_update : (a.update id f).size = a.size :=
  Array.size_modify

theorem node_update_self (h : id < a.size) : (a.update id f).node id = f (a.node id) := by
  have h : id < a.nodes.size := h
  simp only [node, update, Array.getD_eq_getD_getElem?, Array.getElem?_modify, if_pos,
    Array.getElem?_eq_getElem h]
  rfl

theorem node_update_of_ne (h : i ≠ id) : (a.update id f).node i = a.node i := by
  simp [node, update, Array.getElem?_modify, h.symm]

theorem node_update (h : id < a.size) :
    (a.update id f).node i = if i = id then f (a.node i) else a.node i := by
  split
  · next heq => rw [heq, node_update_self h]
  · next hne => exact node_update_of_ne hne

@[simp]
theorem size_newNode : a.newNode.2.size = a.size + 1 :=
  Array.size_push _

theorem node_of_le (h : a.size ≤ i) : a.node i = {} := by
  have h : a.nodes.size ≤ i := h
  simp [node, h]

/-- Behind the last node stand empty ones, so a new node is seen as it was before. -/
@[simp]
theorem node_newNode : a.newNode.2.node i = a.node i := by
  simp only [node, newNode, Array.getD_eq_getD_getElem?, Array.getElem?_push]
  split
  · next h => simp [h]
  · rfl

@[simp]
theorem size_foldl_update {ids : List Nat} :
    (ids.foldl (fun a i => a.update i f) a).size = a.size := by
  induction ids generalizing a with
  | nil => rfl
  | cons id ids ih => rw [List.foldl_cons, ih, size_update]

/-- Changing several nodes in the same way, one after the other. -/
theorem node_foldl_update {ids : List Nat} (hlt : ∀ i ∈ ids, i < a.size) (hnodup : ids.Nodup) :
    (ids.foldl (fun a i => a.update i f) a).node i =
      if i ∈ ids then f (a.node i) else a.node i := by
  induction ids generalizing a with
  | nil => rfl
  | cons id ids ih =>
    obtain ⟨hid, hlt⟩ := List.forall_mem_cons.mp hlt
    obtain ⟨hnot, hnodup⟩ := List.nodup_cons.mp hnodup
    rw [List.foldl_cons, ih (fun i hi => size_update.symm ▸ hlt i hi) hnodup, node_update hid]
    by_cases hi : i = id
    · rw [if_neg (hi ▸ hnot), if_pos hi, if_pos (hi ▸ List.mem_cons_self)]
    · simp [hi]

/-! ## Drawn layouts -/

/-- The arena holds the layout. Its root has the parent, its right end the link `next`, and its leaves the
positions from `position` on; if `linked`, the right end of each left operand is linked to its operator. -/
def Draws (a : Arena) (linked : Bool) : Option Nat → Option Nat → Option Nat → Layout → Prop
  | _, _, _, .hole => True
  | parent, _, _, .empty id => parent = none ∧ id < a.size ∧ a.node id = {}
  | parent, next, position, .atom id x =>
    id < a.size ∧ a.node id = { data := some (.atom x), parent, link := next, index := position }
  | parent, next, position, .modify id m p d =>
    (id < a.size ∧ a.node id = { data := some (.operator (.modifier m)), priority := p,
                                 left := d.root?, parent, link := next }) ∧
      Draws a linked (some id) (if linked then some id else none) position d
  | parent, next, position, .join id k p l r =>
    (id < a.size ∧ a.node id = { data := some (.operator (.connective k)), priority := p,
                                 left := l.root?, right := r.root?, parent }) ∧
      Draws a linked (some id) (if linked then some id else none) position l ∧
      Draws a linked (some id) next (position.map (· + l.draft.numAtoms)) r

/-- The arena holds the layout in the way in which it is read: without links and positions. -/
abbrev Sketches (a : Arena) (parent : Option Nat) (L : Layout) : Prop :=
  a.Draws false parent none none L

namespace Draws

theorem lt_size (h : a.Draws linked parent next position L) : ∀ i ∈ L.ids, i < a.size := by
  induction L generalizing parent next position with
  | hole => exact fun _ hi => absurd hi List.not_mem_nil
  | empty id => exact List.forall_mem_singleton.mpr h.2.1
  | atom id x => exact List.forall_mem_singleton.mpr h.1
  | modify id m p d ih => exact List.forall_mem_cons.mpr ⟨h.1.1, ih h.2⟩
  | join id k p l r ihl ihr =>
    exact List.forall_mem_cons.mpr
      ⟨h.1.1, List.forall_mem_append.mpr ⟨ihl h.2.1, ihr h.2.2⟩⟩

theorem length_ids_le (h : a.Draws linked parent next position L) (hnodup : L.ids.Nodup) :
    L.ids.length ≤ a.size := by
  have hsub : L.ids ⊆ List.range a.size := fun i hi => List.mem_range.mpr (h.lt_size i hi)
  have hle := (hnodup.subperm hsub).length_le
  rwa [List.length_range] at hle

/-- A layout stays drawn if its nodes do not change. -/
theorem of_eq (h : a.Draws linked parent next position L) (hsize : a.size ≤ a'.size)
    (heq : ∀ i ∈ L.ids, a'.node i = a.node i) : a'.Draws linked parent next position L := by
  induction L generalizing parent next position with
  | hole => trivial
  | empty id =>
    exact ⟨h.1, Nat.lt_of_lt_of_le h.2.1 hsize, (heq id List.mem_cons_self).trans h.2.2⟩
  | atom id x =>
    exact ⟨Nat.lt_of_lt_of_le h.1 hsize, (heq id List.mem_cons_self).trans h.2⟩
  | modify id m p d ih =>
    obtain ⟨hid, hd⟩ := List.forall_mem_cons.mp heq
    exact ⟨⟨Nat.lt_of_lt_of_le h.1.1 hsize, hid.trans h.1.2⟩, ih h.2 hd⟩
  | join id k p l r ihl ihr =>
    obtain ⟨hid, hoperands⟩ := List.forall_mem_cons.mp heq
    obtain ⟨hl, hr⟩ := List.forall_mem_append.mp hoperands
    exact ⟨⟨Nat.lt_of_lt_of_le h.1.1 hsize, hid.trans h.1.2⟩, ihl h.2.1 hl, ihr h.2.2 hr⟩

/-- Only a root that hangs nowhere can be empty. -/
theorem draft_ne_hole (h : a.Draws linked (some i) next position L) (hroot : L.root? = some id) :
    L.draft ≠ .hole := by
  cases L with
  | hole => cases hroot
  | empty => cases h.1
  | _ => nofun

theorem parent_root (h : a.Draws linked parent next position L) (hroot : L.root? = some id) :
    (a.node id).parent = parent := by
  cases L with
  | hole => cases hroot
  | empty => cases hroot; rw [h.2.2, h.1]
  | atom => cases hroot; rw [h.2]
  | modify => cases hroot; rw [h.1.2]
  | join => cases hroot; rw [h.1.2]

theorem children_sublist (h : a.Draws linked parent next position L) (hroot : L.root? = some id) :
    (a.node id).children.Sublist L.ids.tail := by
  cases L with
  | hole => cases hroot
  | empty =>
    cases hroot
    rw [h.2.2]
    exact .slnil
  | atom =>
    cases hroot
    rw [h.2]
    exact .slnil
  | modify _ _ _ d =>
    cases hroot
    rw [h.1.2, Node.children, Option.toList_none, List.append_nil]
    exact d.root?_toList_sublist
  | join _ _ _ l r =>
    cases hroot
    rw [h.1.2]
    exact l.root?_toList_sublist.append r.root?_toList_sublist

/-- The root of a layout may get another parent. -/
theorem reparent {parent' : Option Nat} (h : a.Draws linked parent next position L)
    (hfilled : L.draft ≠ .hole) (hnodup : L.ids.Nodup) (hsize : a.size ≤ a'.size)
    (hroot : ∀ i, L.root? = some i → a'.node i = { a.node i with parent := parent' })
    (hothers : ∀ i ∈ L.ids, L.root? ≠ some i → a'.node i = a.node i) :
    a'.Draws linked parent' next position L := by
  cases L with
  | hole => exact absurd rfl hfilled
  | empty id => exact absurd rfl hfilled
  | atom id x =>
    refine ⟨Nat.lt_of_lt_of_le h.1 hsize, ?_⟩
    rw [hroot id rfl, h.2]
  | modify id m p d =>
    have hid := (List.nodup_cons.mp hnodup).1
    refine ⟨⟨Nat.lt_of_lt_of_le h.1.1 hsize, ?_⟩, h.2.of_eq hsize fun i hi => ?_⟩
    · rw [hroot id rfl, h.1.2]
    · refine hothers i (List.mem_cons_of_mem _ hi) fun heq => hid ?_
      cases heq
      exact hi
  | join id k p l r =>
    have hid := (List.nodup_cons.mp hnodup).1
    have hsame : ∀ i ∈ l.ids ++ r.ids, a'.node i = a.node i := fun i hi => by
      refine hothers i (List.mem_cons_of_mem _ hi) fun heq => hid ?_
      cases heq
      exact hi
    obtain ⟨hl, hr⟩ := List.forall_mem_append.mp hsame
    refine ⟨⟨Nat.lt_of_lt_of_le h.1.1 hsize, ?_⟩, h.2.1.of_eq hsize hl, h.2.2.of_eq hsize hr⟩
    rw [hroot id rfl, h.1.2]

end Draws

end Arena

end RegularSets
