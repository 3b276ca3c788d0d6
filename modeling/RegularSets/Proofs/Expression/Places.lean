import Mathlib.Data.List.Nodup
import RegularSets.Expression.Automaton
import RegularSets.Proofs.Expression.Draft

/-!
# Places of a tree

A tree that was read is numbered without gaps (`Tree.Numbered`): its places have the numbers from the
root's on in preorder (`numbers_places`) and its leaves the positions from left to right
(`positions_leaves`). So no two places share a number, and the leaf at a position is found in the list
of leaves one place before (`ExpressionTree.getElem?_leaves`). A walk that starts in a tree stays in it:
the operands of a place and the place after it are places of the tree.
-/

namespace RegularSets

variable {t : Tree} {returns : List Tree} {n i : Nat} {p q : Place}

namespace Tree

/-- The number of leaves. -/
def numLeaves : Tree → Nat
  | atom _ _ _ => 1
  | modify _ _ _ d => d.numLeaves
  | join _ _ _ l r => l.numLeaves + r.numLeaves

/-- Nodes are numbered in preorder from `n` on and leaves from left to right from `i` on. -/
def Numbered (n i : Nat) : Tree → Prop
  | atom _ m j => m = n ∧ j = i
  | modify _ _ m d => m = n ∧ d.Numbered (n + 1) i
  | join _ _ m l r =>
    m = n ∧ l.Numbered (n + 1) i ∧ r.Numbered (n + 1 + l.size) (i + l.numLeaves)

end Tree

/-- A tree made of a draft is numbered. -/
theorem Draft.numbered_of_toTree? {d : Draft} (h : d.toTree? n i = some t) :
    t.Numbered n i ∧ t.size = d.size ∧ t.numLeaves = d.numAtoms := by
  induction d generalizing n i t with
  | hole => cases h
  | atom a =>
    cases h
    exact ⟨⟨rfl, rfl⟩, rfl, rfl⟩
  | modify m p d ih =>
    obtain ⟨u, hu, heq⟩ := Option.bind_eq_some_iff.mp h
    cases heq
    obtain ⟨hnumbered, hsize, hleaves⟩ := ih hu
    exact ⟨⟨rfl, hnumbered⟩, congrArg Nat.succ hsize, hleaves⟩
  | join k p l r ihl ihr =>
    obtain ⟨u, hu, heq⟩ := Option.bind_eq_some_iff.mp h
    obtain ⟨v, hv, heq⟩ := Option.bind_eq_some_iff.mp heq
    cases heq
    obtain ⟨hl, hlsize, hlleaves⟩ := ihl hu
    obtain ⟨hr, hrsize, hrleaves⟩ := ihr hv
    rw [← hlsize, ← hlleaves] at hr
    exact ⟨⟨rfl, hl, hr⟩, by rw [Tree.size, size, hlsize, hrsize],
      by rw [Tree.numLeaves, numAtoms, hlleaves, hrleaves]⟩

namespace Tree

/-! ## Staying in the tree -/

theorem mem_places_self : ⟨t, returns⟩ ∈ t.places returns := by
  cases t <;> exact List.mem_cons_self

/-- The places below a place are places of the tree. -/
theorem mem_places_trans (hp : p ∈ t.places returns) (hq : q ∈ p.subtree.places p.returns) :
    q ∈ t.places returns := by
  induction t generalizing returns with
  | atom a m j =>
    cases List.mem_singleton.mp hp
    exact hq
  | modify m k j d ih =>
    rcases List.mem_cons.mp hp with rfl | hp
    · exact hq
    · exact List.mem_cons_of_mem _ (ih hp)
  | join c k j l r ihl ihr =>
    rcases List.mem_cons.mp hp with rfl | hp
    · exact hq
    · refine List.mem_cons_of_mem _ (List.mem_append.mpr ?_)
      exact (List.mem_append.mp hp).imp ihl ihr

theorem size_le_of_mem_places (hp : p ∈ t.places returns) : p.subtree.size ≤ t.size := by
  induction t generalizing returns with
  | atom a m j =>
    cases List.mem_singleton.mp hp
    exact Nat.le_refl _
  | modify m k j d ih =>
    rcases List.mem_cons.mp hp with rfl | hp
    · exact Nat.le_refl _
    · exact Nat.le_succ_of_le (ih hp)
  | join c k j l r ihl ihr =>
    rw [size]
    rcases List.mem_cons.mp hp with rfl | hp
    · exact Nat.le_refl _
    · rcases List.mem_append.mp hp with hp | hp
      · exact Nat.le_succ_of_le (Nat.le_add_right_of_le (ihl hp))
      · exact Nat.le_succ_of_le (Nat.le_add_left_of_le (ihr hp))

theorem mem_places_left? (hp : p ∈ t.places returns) (h : p.left? = some q) :
    q ∈ t.places returns := by
  refine mem_places_trans hp ?_
  obtain ⟨subtree, rs⟩ := p
  cases subtree with
  | atom a m j => cases h
  | modify m k j d =>
    cases h
    exact List.mem_cons_of_mem _ mem_places_self
  | join c k j l r =>
    cases h
    exact List.mem_cons_of_mem _ (List.mem_append_left _ mem_places_self)

theorem mem_places_right? (hp : p ∈ t.places returns) (h : p.right? = some q) :
    q ∈ t.places returns := by
  refine mem_places_trans hp ?_
  obtain ⟨subtree, rs⟩ := p
  cases subtree with
  | atom a m j => cases h
  | modify m k j d => cases h
  | join c k j l r =>
    cases h
    exact List.mem_cons_of_mem _ (List.mem_append_right _ mem_places_self)

/-- A place of a subtree continues inside it or where the subtree does. -/
theorem following?_of_mem_places (hp : p ∈ t.places returns) :
    p.returns = returns ∨ ∃ q ∈ t.places returns, p.following? = some q := by
  induction t generalizing returns with
  | atom a m j =>
    cases List.mem_singleton.mp hp
    exact Or.inl rfl
  | modify m k j d ih =>
    rcases List.mem_cons.mp hp with rfl | hp
    · exact Or.inl rfl
    · rcases ih hp with heq | ⟨q, hq, hfollowing⟩
      · exact Or.inr ⟨_, mem_places_self, by rw [Place.following?, heq]⟩
      · exact Or.inr ⟨q, List.mem_cons_of_mem _ hq, hfollowing⟩
  | join c k j l r ihl ihr =>
    rcases List.mem_cons.mp hp with rfl | hp
    · exact Or.inl rfl
    · rcases List.mem_append.mp hp with hp | hp
      · rcases ihl hp with heq | ⟨q, hq, hfollowing⟩
        · exact Or.inr ⟨_, mem_places_self, by rw [Place.following?, heq]⟩
        · exact Or.inr ⟨q, List.mem_cons_of_mem _ (List.mem_append_left _ hq), hfollowing⟩
      · refine (ihr hp).imp_right fun ⟨q, hq, hfollowing⟩ => ?_
        exact ⟨q, List.mem_cons_of_mem _ (List.mem_append_right _ hq), hfollowing⟩

theorem mem_places_following? (hp : p ∈ t.places []) (h : p.following? = some q) :
    q ∈ t.places [] := by
  rcases following?_of_mem_places hp with heq | ⟨u, hu, hfollowing⟩
  · rw [Place.following?, heq] at h
    cases h
  · rw [h] at hfollowing
    cases hfollowing
    exact hu

/-! ## Numbers -/

theorem length_places : (t.places returns).length = t.size := by
  induction t generalizing returns with
  | atom a m j => rfl
  | modify m k j d ih => exact congrArg Nat.succ ih
  | join c k j l r ihl ihr => rw [places, List.length_cons, List.length_append, ihl, ihr, size]

theorem numbers_places (h : t.Numbered n i) :
    (t.places returns).map (fun p => p.subtree.number) = List.range' n t.size := by
  induction t generalizing n i returns with
  | atom a m j =>
    obtain ⟨rfl, -⟩ := h
    rfl
  | modify m k j d ih =>
    obtain ⟨rfl, hd⟩ := h
    rw [places, List.map_cons, ih hd, size, List.range'_succ]
    rfl
  | join c k j l r ihl ihr =>
    obtain ⟨rfl, hl, hr⟩ := h
    rw [places, List.map_cons, List.map_append, ihl hl, ihr hr, List.range'_append_1, size,
      List.range'_succ]
    rfl

theorem number_lt (h : t.Numbered n i) (hp : p ∈ t.places returns) :
    p.subtree.number < n + t.size := by
  have hmem := List.mem_map_of_mem (f := fun p : Place => p.subtree.number) hp
  rw [numbers_places h, List.mem_range'_1] at hmem
  exact hmem.2

theorem nodup_number_places (h : t.Numbered n i) :
    ((t.places returns).map fun p => p.subtree.number).Nodup := by
  rw [numbers_places h]
  exact List.nodup_range'

/-- No two places have the same number. -/
theorem eq_of_number (h : t.Numbered n i) (hp : p ∈ t.places returns) (hq : q ∈ t.places returns)
    (heq : p.subtree.number = q.subtree.number) : p = q :=
  List.inj_on_of_nodup_map (nodup_number_places h) hp hq heq

/-! ## Positions -/

theorem positions_leaves (h : t.Numbered n i) (returns : List Tree) :
    (t.leafPlaces returns).map (fun p => p.subtree.position?) =
      (List.range' i t.numLeaves).map some := by
  induction t generalizing n i returns with
  | atom a m j =>
    obtain ⟨-, rfl⟩ := h
    rfl
  | modify m k j d ih => exact ih h.2 _
  | join c k j l r ihl ihr =>
    obtain ⟨-, hl, hr⟩ := h
    have hleaves : leafPlaces (join c k j l r) returns =
        l.leafPlaces (join c k j l r :: returns) ++ r.leafPlaces returns :=
      List.filter_append _ _
    rw [hleaves, List.map_append, ihl hl, ihr hr, ← List.map_append, List.range'_append_1, numLeaves]

theorem length_leafPlaces (h : t.Numbered n i) (returns : List Tree) :
    (t.leafPlaces returns).length = t.numLeaves := by
  have hlength := congrArg List.length (positions_leaves h returns)
  rwa [List.length_map, List.length_map, List.length_range'] at hlength

theorem mem_range'_of_position? {j : Nat} (h : t.Numbered n i) (hp : p ∈ t.places returns)
    (hj : p.subtree.position? = some j) : j ∈ List.range' i t.numLeaves := by
  have hmem : some j ∈ (t.leafPlaces returns).map fun p => p.subtree.position? := by
    refine List.mem_map.mpr ⟨p, List.mem_filter.mpr ⟨hp, ?_⟩, hj⟩
    rw [isLeaf, hj]
    rfl
  rw [positions_leaves h] at hmem
  simpa using hmem

theorem getElem?_leafPlaces (h : t.Numbered n 1) (hp : p ∈ t.places returns)
    (hi : p.subtree.position? = some i) : (t.leafPlaces returns)[i - 1]? = some p := by
  have hleaf : p ∈ t.leafPlaces returns := by
    rw [leafPlaces, List.mem_filter, isLeaf, hi]
    exact ⟨hp, rfl⟩
  obtain ⟨j, hj⟩ := List.mem_iff_getElem?.mp hleaf
  have hposition := congrArg (fun l => l[j]?) (positions_leaves h returns)
  simp only [List.getElem?_map, hj, Option.map_some, hi] at hposition
  obtain ⟨m, hm, heq⟩ := Option.map_eq_some_iff.mp hposition.symm
  cases heq
  obtain ⟨_, hm⟩ := List.getElem?_eq_some_iff.mp hm
  rw [List.getElem_range', Nat.one_mul] at hm
  rwa [← hm, Nat.add_sub_cancel_left]

/-- No two leaves have the same position. -/
theorem eq_of_position? (h : t.Numbered n 1) (hp : p ∈ t.places returns) (hq : q ∈ t.places returns)
    (hi : p.subtree.position? = some i) (hj : q.subtree.position? = some i) : p = q :=
  Option.some.inj ((getElem?_leafPlaces h hp hi).symm.trans (getElem?_leafPlaces h hq hj))

end Tree

/-! ## The list of leaves -/

theorem ExpressionTree.getElem?_leaves {t : ExpressionTree} (h : t.root.Numbered n 1)
    (hp : p ∈ t.root.places []) (hi : p.subtree.position? = some i) : t.leaves[i - 1]? = some p :=
  Tree.getElem?_leafPlaces h hp hi

end RegularSets
