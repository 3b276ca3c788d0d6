import RegularSets.Proofs.Expression.Reading

/-!
# Threads

The references that are stored in the tree of a text fit together (`ThreadedTree.threaded_of_read`). From
the root each node of the tree is come to in exactly one way, and it has the node before it on this way as
its parent. The walk in order, which comes to an operator between its operands, reads the text without
parentheses. The leaves have the positions from left to right. And the link of the node at the right end of
a subtree leads to the node where the walk in order goes on after the subtree.

What is said here is said of the fields of the nodes. The tree holds a layout, so its references are known;
from there on the walk in order carries the argument. A walk that ends and repeats no node leaves only one
way to each node (`Arena.eq_of_follow?`), and each part of a layout is walked through without a break, with
its link leading to what comes next (`Arena.exists_part`).
-/

namespace RegularSets

/-- The two sides of an operator. The only operand of a modifier is on the left. -/
inductive Side
  | left
  | right
  deriving Repr, DecidableEq

namespace Arena

variable {a : Arena} {id i child : Nat} {side : Side} {way way' : List Side} {walk : List Nat}
  {ref : Option Nat}

/-! ## Ways from a node -/

/-- The child on a side. -/
def child? (a : Arena) (id : Nat) : Side → Option Nat
  | .left => (a.node id).left
  | .right => (a.node id).right

/-- The node that a way leads to, if there are children all along. -/
def follow? (a : Arena) (id : Nat) : List Side → Option Nat
  | [] => some id
  | side :: way => (a.child? id side).bind fun child => a.follow? child way

/-- The walk in order below a reference comes to these nodes: first to those below the left child of a
node, then to the node, then to those below its right child. -/
inductive InOrder (a : Arena) : Option Nat → List Nat → Prop
  | nowhere : InOrder a none []
  | node {id : Nat} {before after : List Nat} (left : InOrder a (a.node id).left before)
      (right : InOrder a (a.node id).right after) : InOrder a (some id) (before ++ id :: after)

namespace InOrder

/-- A walk below a node consists of the node and of walks below its children. -/
theorem exists_below (h : a.InOrder (some id) walk) :
    ∃ below : Side → List Nat, walk = below .left ++ id :: below .right ∧
      ∀ side, a.InOrder (a.child? id side) (below side) := by
  cases h with
  | @node _ before after left right =>
    refine ⟨fun side => match side with | .left => before | .right => after, rfl, fun side => ?_⟩
    cases side with
    | left => exact left
    | right => exact right

theorem mem_of_follow? (h : a.InOrder (some id) walk) (hway : a.follow? id way = some i) :
    i ∈ walk := by
  induction way generalizing id walk with
  | nil =>
    cases hway
    cases h
    exact List.mem_append_right _ List.mem_cons_self
  | cons side way ih =>
    obtain ⟨child, hchild, hway⟩ := Option.bind_eq_some_iff.mp hway
    obtain ⟨below, rfl, hbelow⟩ := h.exists_below
    have hmem : i ∈ below side := ih (hchild ▸ hbelow side) hway
    cases side with
    | left => exact List.mem_append_left _ hmem
    | right => exact List.mem_append_right _ (List.mem_cons_of_mem _ hmem)

section Nodup

variable {below : Side → List Nat} (h : (below .left ++ id :: below .right).Nodup)

include h

theorem nodup_below (side : Side) : (below side).Nodup := by
  obtain ⟨hleft, hright, -⟩ := List.nodup_append.mp h
  cases side with
  | left => exact hleft
  | right => exact (List.nodup_cons.mp hright).2

theorem not_mem_below (side : Side) : id ∉ below side := by
  obtain ⟨-, hright, hdisjoint⟩ := List.nodup_append.mp h
  cases side with
  | left => exact fun hmem => hdisjoint id hmem id List.mem_cons_self rfl
  | right => exact (List.nodup_cons.mp hright).1

theorem side_eq_of_mem_below {side' : Side} (hi : i ∈ below side) (hi' : i ∈ below side') :
    side = side' := by
  have hdisjoint : i ∈ below .left → i ∉ below .right := fun hleft hright =>
    (List.nodup_append.mp h).2.2 i hleft i (List.mem_cons_of_mem _ hright) rfl
  cases side <;> cases side'
  · rfl
  · exact absurd hi' (hdisjoint hi)
  · exact absurd hi (hdisjoint hi')
  · rfl

end Nodup

/-- Some way leads to each node of the walk. -/
theorem exists_follow?_eq (h : a.InOrder ref walk) (hi : i ∈ walk) :
    ∃ id way, ref = some id ∧ a.follow? id way = some i := by
  induction h with
  | nowhere => cases hi
  | @node id before after left right ihl ihr =>
    rcases List.mem_append.mp hi with hi | hi
    · obtain ⟨child, way, hchild, hway⟩ := ihl hi
      exact ⟨id, .left :: way, rfl, Option.bind_eq_some_iff.mpr ⟨child, hchild, hway⟩⟩
    · rcases List.mem_cons.mp hi with rfl | hi
      · exact ⟨i, [], rfl, rfl⟩
      · obtain ⟨child, way, hchild, hway⟩ := ihr hi
        exact ⟨id, .right :: way, rfl, Option.bind_eq_some_iff.mpr ⟨child, hchild, hway⟩⟩

/-- The first step of a way tells in which part of the walk it ends. -/
theorem mem_below_of_follow? {below : Side → List Nat}
    (h : ∀ side, a.InOrder (a.child? id side) (below side))
    (hway : a.follow? id (side :: way) = some i) : i ∈ below side := by
  obtain ⟨child, hchild, hway⟩ := Option.bind_eq_some_iff.mp hway
  exact mem_of_follow? (hchild ▸ h side) hway

/-- If the walk repeats no node, only one way leads to each node of it, because the walks below the two
children have no node in common and the node itself is in neither. -/
theorem eq_of_follow? (h : a.InOrder (some id) walk) (hnodup : walk.Nodup)
    (hway : a.follow? id way = some i) (hway' : a.follow? id way' = some i) : way = way' := by
  induction way generalizing id walk way' with
  | nil =>
    cases hway
    cases way' with
    | nil => rfl
    | cons side' way' =>
      obtain ⟨below, rfl, hbelow⟩ := h.exists_below
      exact absurd (mem_below_of_follow? hbelow hway') (not_mem_below hnodup side')
  | cons side way ih =>
    obtain ⟨below, rfl, hbelow⟩ := h.exists_below
    have hmem := mem_below_of_follow? hbelow hway
    cases way' with
    | nil =>
      cases hway'
      exact absurd hmem (not_mem_below hnodup side)
    | cons side' way' =>
      obtain rfl := side_eq_of_mem_below hnodup hmem (mem_below_of_follow? hbelow hway')
      obtain ⟨child, hchild, hway⟩ := Option.bind_eq_some_iff.mp hway
      obtain ⟨child', hchild', hway'⟩ := Option.bind_eq_some_iff.mp hway'
      cases hchild.symm.trans hchild'
      rw [ih (hchild ▸ hbelow side) (nodup_below hnodup side) hway hway']

end InOrder

/-! ## Walks through a layout -/

section Layout

variable {L : Layout} {parent next position : Option Nat} {linked : Bool}

theorem inOrder_walk (h : a.Draws linked parent next position L) : a.InOrder L.root? L.walk := by
  induction L generalizing parent next position with
  | hole => exact .nowhere
  | empty id => exact .node (by rw [h.2.2]; exact .nowhere) (by rw [h.2.2]; exact .nowhere)
  | atom id x => exact .node (by rw [h.2]; exact .nowhere) (by rw [h.2]; exact .nowhere)
  | modify id m p d ih =>
    exact .node (by rw [h.1.2]; exact ih h.2) (by rw [h.1.2]; exact .nowhere)
  | join id k p l r ihl ihr =>
    exact .node (by rw [h.1.2]; exact ihl h.2.1) (by rw [h.1.2]; exact ihr h.2.2)

theorem parent_of_child? (h : a.Draws linked parent next position L) (hroot : L.root? = some id)
    (hchild : a.child? id side = some child) : (a.node child).parent = some id := by
  cases L with
  | hole => cases hroot
  | empty j =>
    cases hroot
    cases side <;> rw [child?, h.2.2] at hchild <;> cases hchild
  | atom j x =>
    cases hroot
    cases side <;> rw [child?, h.2] at hchild <;> cases hchild
  | modify j m p d =>
    cases hroot
    cases side <;> rw [child?, h.1.2] at hchild
    · exact h.2.parent_root hchild
    · cases hchild
  | join j k p l r =>
    cases hroot
    cases side <;> rw [child?, h.1.2] at hchild
    · exact h.2.1.parent_root hchild
    · exact h.2.2.parent_root hchild

/-- The link of the node where the walk ends is the link of the layout. -/
theorem link_of_getLast?_walk (h : a.Draws linked parent next position L)
    (hcomplete : L.draft.isComplete = true) (hi : L.walk.getLast? = some i) :
    (a.node i).link = next := by
  induction L generalizing parent next position with
  | hole => cases hi
  | empty => cases hcomplete
  | atom id x =>
    obtain rfl : id = i := Option.some.inj hi
    rw [h.2]
  | modify id m p d =>
    rw [Layout.walk, List.getLast?_concat] at hi
    cases hi
    rw [h.1.2]
  | join id k p l r _ ihr =>
    have hr := (Bool.and_eq_true_iff.mp hcomplete).2
    obtain ⟨j, hj⟩ := Layout.exists_root?_eq hr
    exact ihr h.2.2 hr (Layout.getLast?_walk_join hj ▸ hi)

theorem head?_append_cons (ids ids' : List Nat) (id : Nat) :
    (ids ++ id :: ids').head? = (ids ++ [id]).head? := by
  cases ids <;> rfl

/-- A part of a layout with a node as its root. The walk goes through the part without a break, and the part
is linked to the node that comes next. -/
structure Part (a : Arena) (L : Layout) (next : Option Nat) (id : Nat) (S : Layout)
    (before after : List Nat) : Prop where
  walk_eq : L.walk = before ++ S.walk ++ after
  root : S.root? = some id
  complete : S.draft.isComplete = true
  drawn : ∃ parent position, a.Draws true parent (after ++ next.toList).head? position S

theorem Part.nodup {S : Layout} {before after : List Nat} (h : a.Part L next i S before after)
    (hnodup : L.walk.Nodup) : S.ids.Nodup := by
  rw [h.walk_eq] at hnodup
  exact Layout.perm_walk.nodup_iff.mp (List.nodup_append.mp (List.nodup_append.mp hnodup).1).2.1

/-- Each node is the root of a part of the layout. -/
theorem exists_part (h : a.Draws true parent next position L) (hcomplete : L.draft.isComplete = true)
    (hi : i ∈ L.ids) : ∃ S before after, a.Part L next i S before after := by
  have hself : ∀ {parent next position L}, a.Draws true parent next position L →
      L.draft.isComplete = true → L.root? = some i → a.Part L next i L [] [] := by
    intro parent next position L h hcomplete hroot
    refine ⟨(List.append_nil _).symm, hroot, hcomplete, parent, position, ?_⟩
    rwa [List.nil_append, Option.head?_toList]
  induction L generalizing parent next position with
  | hole => cases hi
  | empty => cases hcomplete
  | atom id x => exact ⟨_, _, _, hself h hcomplete (congrArg some (List.mem_singleton.mp hi).symm)⟩
  | modify id m p d ih =>
    rcases List.mem_cons.mp hi with rfl | hi
    · exact ⟨_, _, _, hself h hcomplete rfl⟩
    · obtain ⟨S, before, after, hwalk, hroot, hS, parent, position, hdrawn⟩ := ih h.2 hcomplete hi
      refine ⟨S, before, after ++ [id], ?_, hroot, hS, parent, position, ?_⟩
      · rw [Layout.walk, hwalk, List.append_assoc _ after]
      · rw [List.append_assoc, List.singleton_append, head?_append_cons]
        exact hdrawn
  | join id k p l r ihl ihr =>
    obtain ⟨hl, hr⟩ := Bool.and_eq_true_iff.mp hcomplete
    rcases List.mem_cons.mp hi with rfl | hi
    · exact ⟨_, _, _, hself h hcomplete rfl⟩
    · rcases List.mem_append.mp hi with hi | hi
      · -- the left operand is followed by the operator
        obtain ⟨S, before, after, hwalk, hroot, hS, parent, position, hdrawn⟩ := ihl h.2.1 hl hi
        refine ⟨S, before, after ++ id :: r.walk, ?_, hroot, hS, parent, position, ?_⟩
        · rw [Layout.walk, hwalk, List.append_assoc _ after]
        · rw [List.append_assoc, List.cons_append, head?_append_cons]
          exact hdrawn
      · -- the right operand ends where the operator does
        obtain ⟨S, before, after, hwalk, hroot, hS, hdrawn⟩ := ihr h.2.2 hr hi
        refine ⟨S, l.walk ++ id :: before, after, ?_, hroot, hS, hdrawn⟩
        rw [Layout.walk, hwalk]
        simp only [List.append_assoc, List.cons_append]

theorem map_index_leaves {start : Nat} (h : a.Draws linked parent next (some start) L) :
    L.leaves.map (fun i => (a.node i).index) = (List.range' start L.draft.numAtoms).map some := by
  induction L generalizing parent next start with
  | hole => rfl
  | empty => rfl
  | atom id x => rw [Layout.leaves, List.map_singleton, h.2]; rfl
  | modify id m p d ih => exact ih h.2
  | join id k p l r ihl ihr =>
    rw [Layout.leaves, List.map_append, ihl h.2.1, ihr h.2.2, ← List.map_append, List.range'_append_1,
      Layout.draft, Draft.numAtoms]

end Layout

end Arena

/-! ## The text -/

/-- The signs of an expression from left to right. -/
def Expression.signs : Expression → List Char
  | atom a => [a.sign]
  | modify m d => d.signs ++ [m.sign]
  | join k l r => l.signs ++ k.sign :: r.signs

/-- The signs of an expression are its text without parentheses. -/
theorem Derives.filter_eq_signs {category : Category} {text : List Char} {e : Expression}
    (h : Derives false category text e) : text.filter (fun c => !isParenthesis c) = e.signs := by
  induction h with
  | @terminal c visible =>
    have hparenthesis : isParenthesis c = false := by
      simp only [isTerminal, Bool.and_eq_true, Bool.not_eq_true'] at visible
      exact visible.2
    rw [List.filter_singleton, hparenthesis]
    rfl
  | emptyWord => rfl
  | group inner ih =>
    rw [← ih, List.filter_append]
    exact List.append_nil _
  | plain base ih => exact ih
  | modified m base ih =>
    rw [List.filter_append, ih]
    cases m <;> rfl
  | single factor ih => exact ih
  | dotted left right ihl ihr =>
    rw [List.filter_append, ihl, Expression.signs, ← ihr]
    rfl
  | adjacent allowed left right ihl ihr => cases allowed
  | one term ih => exact ih
  | barred left right ihl ihr =>
    rw [List.filter_append, ihl, Expression.signs, ← ihr]
    rfl

/-- The walk through a layout reads the signs of its expression. -/
theorem Arena.map_sign_walk {a : Arena} {L : Layout} {linked : Bool} {parent next position : Option Nat}
    {e : Expression} (h : a.Draws linked parent next position L) (he : L.draft.expression? = some e) :
    L.walk.map (fun i => (a.node i).sign) = e.signs := by
  induction L generalizing parent next position e with
  | hole => cases he
  | empty => cases he
  | atom id x =>
    cases he
    rw [Layout.walk, List.map_singleton, h.2]
    rfl
  | modify id m p d ih =>
    obtain ⟨f, hf, rfl⟩ := Option.map_eq_some_iff.mp he
    rw [Layout.walk, List.map_append, ih h.2 hf, List.map_singleton, h.1.2]
    rfl
  | join id k p l r ihl ihr =>
    obtain ⟨f, hf, hmap⟩ := Option.bind_eq_some_iff.mp he
    obtain ⟨g, hg, rfl⟩ := Option.map_eq_some_iff.mp hmap
    rw [Layout.walk, List.map_append, List.map_cons, ihl h.2.1 hf, ihr h.2.2 hg, h.1.2]
    rfl

/-! ## Positions -/

/-- In a list of things with consecutive numbers, a thing is found by its number. -/
theorem find?_eq_of_map_eq_range' {α : Type} {f : α → Option Nat} {l : List α} {s : Nat}
    (h : l.map f = (List.range' s l.length).map some) (k : Nat) :
    l.find? (fun x => f x = some k) = if k < s then none else l[k - s]? := by
  induction l generalizing s with
  | nil => simp
  | cons x l ih =>
    rw [List.length_cons, List.range'_succ, List.map_cons, List.map_cons, List.cons_eq_cons] at h
    obtain ⟨hx, hl⟩ := h
    rcases Nat.lt_trichotomy k s with hlt | rfl | hlt
    · rw [List.find?_cons_of_neg (by simp [hx]; omega), ih hl, if_pos (by omega), if_pos hlt]
    · rw [List.find?_cons_of_pos (by simp [hx])]
      simp
    · have hsucc : k - s = k - (s + 1) + 1 := by omega
      rw [List.find?_cons_of_neg (by simp [hx]; omega), ih hl, if_neg (by omega), if_neg (by omega),
        hsucc, List.getElem?_cons_succ]

/-! ## The tree of a text -/

namespace ThreadedTree

variable {t : ThreadedTree} {text : List Char} {walk : List Nat}

/-- The references that are stored in the tree of a text fit together. -/
structure Threaded (t : ThreadedTree) (text : List Char) (walk : List Nat) : Prop where
  /-- The walk in order from the root comes to these nodes. -/
  inOrder : t.arena.InOrder (some t.root) walk
  /-- It comes to no node twice. -/
  nodup : walk.Nodup
  /-- They are the nodes that some way from the root leads to. -/
  reached : ∀ id, id ∈ walk ↔ ∃ way, t.arena.follow? t.root way = some id
  /-- No two ways lead to one node. -/
  once : ∀ {way way' id}, t.arena.follow? t.root way = some id → t.arena.follow? t.root way' = some id →
    way = way'
  /-- Every node is filled and has the children that its symbol asks for. -/
  complete : ∀ id ∈ walk, id < t.arena.size ∧ (t.arena.node id).isComplete = true
  /-- The root has no parent. -/
  parent_root : (t.arena.node t.root).parent = none
  /-- The parent of a child is the node itself. -/
  parent_child : ∀ id ∈ walk, ∀ side child, t.arena.child? id side = some child →
    (t.arena.node child).parent = some id
  /-- From every node the way up ends at the root. -/
  rootOf_eq : ∀ id ∈ walk, t.arena.rootOf id = t.root
  /-- The walk reads the text without parentheses. -/
  signs : walk.map (fun id => (t.arena.node id).sign) = text.filter fun c => !isParenthesis c
  /-- The leaves are listed in the order of the walk. -/
  leaves_eq : t.leaves = walk.filter fun id => (t.arena.node id).isLeaf
  /-- They have the positions from 1 on. -/
  positions : t.leaves.map (fun id => (t.arena.node id).index) =
    (List.range' 1 t.leaves.length).map some
  /-- The leaf at a position is found; no leaf is at 0 or behind the last. -/
  nodeAtPosition?_eq : ∀ i, t.nodeAtPosition? i = if i = 0 then none else t.leaves[i - 1]?
  /-- The walk goes through a subtree without a break, and goes on where the link of its right end leads;
  it ends there if there is no link. -/
  links : ∀ id ∈ walk, ∃ before below after, walk = before ++ below ++ after ∧
    t.arena.InOrder (some id) below ∧ below.getLast? = some (t.arena.rightmost id) ∧
    (t.arena.node (t.arena.rightmost id)).link = after.head?

open Arena in
/-- A tree that holds a layout is threaded. -/
theorem Holds.threaded {L : Layout} {e : Expression} (h : t.Holds L) (he : L.draft.expression? = some e)
    (htext : Derives false .expression text e) : t.Threaded text L.walk := by
  have hwalk : t.arena.InOrder (some t.root) L.walk := h.root ▸ inOrder_walk h.drawn
  have hnodup : L.walk.Nodup := Layout.perm_walk.nodup_iff.mpr h.nodup
  have hleaves : t.leaves = L.leaves := leaves_eq h.drawn h.complete h.root h.nodup
  have hpositions : t.leaves.map (fun id => (t.arena.node id).index) =
      (List.range' 1 t.leaves.length).map some := by
    rw [hleaves, map_index_leaves h.drawn, Layout.length_leaves]
  have hcomplete := all_isComplete h.drawn
  rw [h.complete, h.root] at hcomplete
  have hparts : ∀ id ∈ L.walk, ∃ S before after, t.arena.Part L none id S before after := fun id hid =>
    exists_part h.drawn h.complete (Layout.mem_walk.mp hid)
  exact
    { inOrder := hwalk
      nodup := hnodup
      reached := fun id => by
        refine ⟨fun hid => ?_, fun ⟨_, hway⟩ => hwalk.mem_of_follow? hway⟩
        obtain ⟨root, way, hroot, hway⟩ := hwalk.exists_follow?_eq hid
        cases hroot
        exact ⟨way, hway⟩
      once := hwalk.eq_of_follow? hnodup
      complete := fun id hid =>
        ⟨h.drawn.lt_size id (Layout.mem_walk.mp hid),
          List.all_eq_true.mp hcomplete id (Layout.mem_walk.mp hid)⟩
      parent_root := h.drawn.parent_root h.root
      parent_child := fun id hid side child hchild => by
        obtain ⟨S, _, _, hS⟩ := hparts id hid
        obtain ⟨_, _, hdrawn⟩ := hS.drawn
        exact parent_of_child? hdrawn hS.root hchild
      rootOf_eq := fun id hid => rootOf_eq h.drawn h.root h.nodup (Layout.mem_walk.mp hid)
      signs := by rw [map_sign_walk h.drawn he, htext.filter_eq_signs]
      leaves_eq := by rw [hleaves, (filter_isLeaf h.drawn h.complete).2]
      positions := hpositions
      nodeAtPosition?_eq := fun i => by
        rw [nodeAtPosition?, find?_eq_of_map_eq_range' hpositions]
        simp only [Nat.lt_one_iff]
      links := fun id hid => by
        obtain ⟨S, before, after, hS⟩ := hparts id hid
        obtain ⟨parent, position, hdrawn⟩ := hS.drawn
        rw [Option.toList_none, List.append_nil] at hdrawn
        have hend := getLast?_walk_eq_rightmost hdrawn hS.complete hS.root (hS.nodup hnodup)
        exact ⟨before, S.walk, after, hS.walk_eq, hS.root ▸ inOrder_walk hdrawn, hend,
          link_of_getLast?_walk hdrawn hS.complete hend⟩ }

/-- **Threads.** In the tree that a text is read into, one way leads from the root to each node, the
parents lead back, the walk in order reads the text without parentheses, the leaves have the positions from
left to right, and the link at the right end of a subtree leads to where the walk goes on after it. -/
theorem threaded_of_read (h : read text = .ok t) : ∃ walk, t.Threaded text walk := by
  obtain ⟨-, L, hL, hread⟩ := exists_holds_of_read h
  obtain ⟨e, he⟩ := Draft.exists_derives_of_read hread
  obtain ⟨d, hd, hexpression⟩ := Draft.read_of_derives he
  -- the text is read into one draft only, so its derivation has the structure of this one
  cases hread.symm.trans hd
  exact ⟨L.walk, hL.threaded hexpression he⟩

/-- A closure over a group, and a letter after it. Node 2 was the root of the group; its content has moved
to node 0. -/
def starred : ThreadedTree where
  text := "(a|b)*.c".toList
  arena.nodes :=
    #[{ data := some (.operator .alternation), priority := 11, left := some 1, right := some 3,
        parent := some 4 },
      { data := some (.atom (.terminal 'a')), parent := some 0, link := some 0, index := some 1 },
      {},
      { data := some (.atom (.terminal 'b')), parent := some 0, link := some 4, index := some 2 },
      { data := some (.operator (.modifier .star)), priority := 3, left := some 0, parent := some 5,
        link := some 5 },
      { data := some (.operator .concatenation), priority := 2, left := some 4, right := some 6 },
      { data := some (.atom (.terminal 'c')), parent := some 5, index := some 3 }]
  root := 5

theorem threaded_of_read_starred :
    read starred.text = .ok starred ∧ ∃ walk, starred.Threaded starred.text walk :=
  ⟨by decide, threaded_of_read (by decide)⟩

end ThreadedTree

end RegularSets
