import RegularSets.Proofs.Expression.Automaton

/-!
# First, following and last leaves

The compositions of a tree are the classical sets of leaves, those by which marked words begin, those
that come next after a leaf and those that end a word (`ExpressionTree.composition_first_follow_last`).

A walk finds what its visits admit. Every walk can go on to the end (`exists_continues`), so the
leaves it finds are those by which admitted words begin. What may come after a leaf is what comes
after it in the marked words of the whole tree (`continues_iff_exists_marks`): such a word takes the
walk past the leaf, and in the other direction the operators above the leaf complete it to a word of
the tree.
-/

namespace RegularSets

open RegularSets.Tree RegularSets.Visit

variable {t : Tree} {returns : List Tree} {p : Place} {x : Visit} {visits : List Visit}
  {u v w : List Nat} {i j : Nat}

namespace Tree

/-! ## First, following and last leaves -/

/-- A marked word begins with the leaf. -/
def First (t : Tree) (i : Nat) : Prop :=
  ∃ w, Marks t (i :: w)

/-- In a marked word the second leaf comes right after the first one. -/
def Follow (t : Tree) (i j : Nat) : Prop :=
  ∃ u w, Marks t (u ++ i :: j :: w)

/-- A marked word ends with the leaf. -/
def Last (t : Tree) (i : Nat) : Prop :=
  ∃ u, Marks t (u ++ [i])

/-! ## Every walk can go on to the end -/

theorem exists_marks (t : Tree) : ∃ u, Marks t u := by
  induction t with
  | atom a n i =>
    cases a with
    | terminal c => exact ⟨_, .terminal c n i⟩
    | emptyWord => exact ⟨_, .emptyWord n i⟩
  | modify m p n d ih =>
    obtain ⟨u, hu⟩ := ih
    cases m with
    | star => exact ⟨_, .starNone p n⟩
    | plus => exact ⟨_, .plusOne p n hu⟩
    | optional => exact ⟨_, .optionalNone p n⟩
  | join k p n l r ihl ihr =>
    obtain ⟨u, hu⟩ := ihl
    obtain ⟨v, hv⟩ := ihr
    cases k with
    | concatenation => exact ⟨_, .concatenation p n hu hv⟩
    | alternation => exact ⟨_, .alternationLeft p n hu⟩

theorem exists_after (t : Tree) : ∃ u, t.After u := by
  cases t with
  | atom a n i => exact ⟨_, rfl⟩
  | modify m p n d =>
    cases m with
    | star => exact ⟨_, .starNone p n⟩
    | plus => exact ⟨_, Or.inl rfl⟩
    | optional => exact ⟨_, rfl⟩
  | join k p n l r =>
    cases k with
    | concatenation => exact r.exists_marks
    | alternation => exact ⟨_, rfl⟩

end Tree

theorem exists_continues (returns : List Tree) : ∃ w, Continues returns w := by
  induction returns with
  | nil => exact ⟨[], rfl⟩
  | cons t returns ih =>
    obtain ⟨u, hu⟩ := t.exists_after
    obtain ⟨v, hv⟩ := ih
    exact ⟨u ++ v, continues_cons hu hv⟩

theorem admits_root : (come ⟨t, []⟩ .down).Admits w ↔ Marks t w := by
  constructor
  · rintro ⟨u, _, hu, rfl, rfl⟩
    rwa [List.append_nil]
  · intro h
    exact ⟨w, [], h, rfl, List.append_nil w⟩

theorem admits_consumed (hi : p.consumed? .down = some i) (hw : Continues p.returns w) :
    (come p .down).Admits (i :: w) :=
  admits_iff_finds.mpr ⟨p, .refl, hi, hw⟩

/-- A visit leads to a terminal exactly if it admits a word that begins with it. -/
theorem exists_leads_iff_exists_admits :
    (∃ p, x.Leads (come p .down) ∧ p.consumed? .down = some i) ↔ ∃ w, x.Admits (i :: w) := by
  constructor
  · intro h
    obtain ⟨p, hleads, hi⟩ := h
    obtain ⟨w, hw⟩ := exists_continues p.returns
    exact ⟨w, .of_leads hleads (admits_consumed hi hw)⟩
  · intro h
    obtain ⟨w, hw⟩ := h
    obtain ⟨p, hleads, hi, -⟩ := admits_iff_finds.mp hw
    exact ⟨p, hleads, hi⟩

/-! ## Leaves in the marked words of the tree -/

/-- A marked word is read past each of its leaves. -/
theorem exists_place_of_admits (hx : x.Within t) (h : x.Admits (u ++ i :: w)) :
    ∃ p ∈ t.places [], p.consumed? .down = some i ∧ Continues p.returns w := by
  induction u generalizing x with
  | nil =>
    obtain ⟨p, hleads, hi, hw⟩ := admits_iff_finds.mp h
    exact ⟨p, hx.of_leads hleads, hi, hw⟩
  | cons j u ih =>
    obtain ⟨p, hleads, -, hrest⟩ := admits_iff_finds.mp h
    exact ih (within_leave (hx.of_leads hleads)) (admits_leave.mpr hrest)

/-- What is admitted at a place of a tree is the end of what is admitted at its root. -/
theorem exists_admits_of_mem_places (hp : p ∈ t.places returns) (h : (come p .down).Admits w) :
    ∃ u, (come ⟨t, returns⟩ .down).Admits (u ++ w) := by
  induction t generalizing returns with
  | atom a n i =>
    cases List.mem_singleton.mp hp
    exact ⟨[], h⟩
  | modify m k n d ih =>
    rcases List.mem_cons.mp hp with rfl | hp
    · exact ⟨[], h⟩
    · obtain ⟨u, hu⟩ := ih hp
      refine ⟨u, .of_next ?_ hu⟩
      cases m <;> exact List.mem_cons_self
  | join c k n l r ihl ihr =>
    have hleft : come ⟨l, join c k n l r :: returns⟩ .down ∈
        (come ⟨join c k n l r, returns⟩ .down).next := by
      cases c <;> exact List.mem_cons_self
    rcases List.mem_cons.mp hp with rfl | hp
    · exact ⟨[], h⟩
    · rcases List.mem_append.mp hp with hp | hp
      · obtain ⟨u, hu⟩ := ihl hp
        exact ⟨u, .of_next hleft hu⟩
      · obtain ⟨u, hu⟩ := ihr hp
        cases c with
        | alternation => exact ⟨u, .of_next (List.mem_cons_of_mem _ List.mem_cons_self) hu⟩
        | concatenation =>
          -- the right operand is not entered from above: some word of the left one is read first
          obtain ⟨v, hv⟩ := l.exists_marks
          have hup : (come ⟨join .concatenation k n l r, returns⟩ .up).Admits (u ++ w) :=
            .of_next List.mem_cons_self hu
          refine ⟨v ++ u, .of_next hleft ?_⟩
          rw [List.append_assoc]
          exact ⟨v, u ++ w, hv, hup, rfl⟩

/-- What may come after a leaf is what comes after it in the marked words of the tree. -/
theorem continues_iff_exists_marks (ht : t.Numbered 0 1) (hp : p ∈ t.places [])
    (hi : p.consumed? .down = some i) :
    Continues p.returns w ↔ ∃ u, Marks t (u ++ i :: w) := by
  constructor
  · intro hw
    obtain ⟨u, hu⟩ := exists_admits_of_mem_places hp (admits_consumed hi hw)
    exact ⟨u, admits_root.mp hu⟩
  · intro h
    obtain ⟨u, hu⟩ := h
    obtain ⟨q, hq, hj, hw⟩ :=
      exists_place_of_admits (within_root _ List.mem_cons_self) (admits_root.mpr hu)
    obtain ⟨-, hposition⟩ := Place.consumed?_eq_some.mp hi
    obtain ⟨-, hposition'⟩ := Place.consumed?_eq_some.mp hj
    rwa [eq_of_position? ht hp hq hposition hposition']

/-! ## Compositions -/

namespace Tree

variable (ht : t.Numbered 0 1)

include ht

theorem mem_positions_walkFrom_iff (hvisits : ∀ x ∈ visits, x.Within t) :
    i ∈ (t.walkFrom visits).positions ↔ ∃ x ∈ visits, ∃ w, x.Admits (i :: w) :=
  (mem_positions_walkFrom ht hvisits).trans
    (exists_congr fun _ => and_congr_right fun _ => exists_leads_iff_exists_admits)

theorem reachesEnd_walkFrom_iff (hvisits : ∀ x ∈ visits, x.Within t) :
    (t.walkFrom visits).reachesEnd = true ↔ ∃ x ∈ visits, x.Admits [] := by
  rw [reachesEnd_walkFrom ht hvisits]
  exact exists_congr fun x => and_congr_right fun _ => (admits_iff_finds (w := [])).symm

theorem mem_positions_initialComposition : i ∈ t.initialComposition.positions ↔ t.First i := by
  rw [initialComposition, mem_positions_walkFrom_iff ht within_root]
  simp only [List.mem_singleton, exists_eq_left, admits_root, First]

section After

variable {leaves : List Place}
  (hleaves : ∀ p ∈ leaves, p ∈ t.places [] ∧ ∃ i, p.consumed? .down = some i)

omit ht in
include hleaves in
theorem within_map_leave : ∀ x ∈ leaves.map Place.leave, x.Within t := by
  intro x hx
  obtain ⟨p, hp, rfl⟩ := List.mem_map.mp hx
  exact within_leave (hleaves p hp).1

include hleaves

theorem mem_positions_compositionAfter : j ∈ (t.compositionAfter leaves).positions ↔
    ∃ p ∈ leaves, ∃ i, p.consumed? .down = some i ∧ t.Follow i j := by
  rw [compositionAfter, mem_positions_walkFrom_iff ht (within_map_leave hleaves)]
  simp only [List.mem_map, exists_exists_and_eq_and, admits_leave]
  refine exists_congr fun p => and_congr_right fun hp => ?_
  obtain ⟨hplace, i, hi⟩ := hleaves p hp
  simp only [continues_iff_exists_marks ht hplace hi, hi, Option.some.injEq, exists_eq_left', Follow]
  exact exists_comm

theorem reachesEnd_compositionAfter : (t.compositionAfter leaves).reachesEnd = true ↔
    ∃ p ∈ leaves, ∃ i, p.consumed? .down = some i ∧ t.Last i := by
  rw [compositionAfter, reachesEnd_walkFrom_iff ht (within_map_leave hleaves)]
  simp only [List.mem_map, exists_exists_and_eq_and, admits_leave]
  refine exists_congr fun p => and_congr_right fun hp => ?_
  obtain ⟨hplace, i, hi⟩ := hleaves p hp
  simp only [continues_iff_exists_marks ht hplace hi, hi, Option.some.injEq, exists_eq_left', Last]

end After

end Tree

namespace ExpressionTree

variable {text : List Char} {t : ExpressionTree}

theorem exists_consumed_of_mem_leaves {p : Place} (hp : p ∈ t.leaves)
    (hterminal : p.terminal?.isSome = true) :
    p ∈ t.root.places [] ∧ ∃ i, p.consumed? .down = some i := by
  obtain ⟨hplace, hleaf⟩ := List.mem_filter.mp hp
  obtain ⟨i, hi⟩ := Option.isSome_iff_exists.mp hleaf
  exact ⟨hplace, i, Place.consumed?_eq_some.mpr ⟨Option.isSome_iff_exists.mp hterminal, hi⟩⟩

/-- **First, following and last leaves.** In a tree that was read, the composition at the beginning
holds exactly the leaves by which marked words begin, and reaches the end if the expression matches
the empty word. The composition after any terminal leaves holds exactly the leaves that come right
after one of them in a marked word, and reaches the end if one of them ends a marked word. -/
theorem composition_first_follow_last (h : read text = .ok t) :
    (∀ i, i ∈ t.root.initialComposition.positions ↔ t.root.First i) ∧
      (t.root.initialComposition.reachesEnd = true ↔ t.root.expression.Matches []) ∧
      ∀ leaves : List Place, (∀ p ∈ leaves, p ∈ t.leaves ∧ p.terminal?.isSome = true) →
        (∀ j, j ∈ (t.root.compositionAfter leaves).positions ↔
          ∃ p ∈ leaves, ∃ i, p.subtree.position? = some i ∧ t.root.Follow i j) ∧
        ((t.root.compositionAfter leaves).reachesEnd = true ↔
          ∃ p ∈ leaves, ∃ i, p.subtree.position? = some i ∧ t.root.Last i) := by
  have ht : t.root.Numbered 0 1 := numbered_of_read h
  have hempty : t.root.initialComposition.Accepts t [] ↔ t.root.expression.Matches [] :=
    accepts_initialComposition ht
  refine ⟨fun i => mem_positions_initialComposition ht, hempty, fun leaves hleaves => ?_⟩
  have hplaces : ∀ p ∈ leaves, p ∈ t.root.places [] ∧ ∃ i, p.consumed? .down = some i :=
    fun p hp => exists_consumed_of_mem_leaves (hleaves p hp).1 (hleaves p hp).2
  have hposition : ∀ q : Nat → Prop,
      (∃ p ∈ leaves, ∃ i, p.consumed? .down = some i ∧ q i) ↔
        ∃ p ∈ leaves, ∃ i, p.subtree.position? = some i ∧ q i := by
    intro q
    refine exists_congr fun p => and_congr_right fun hp => exists_congr fun i => ?_
    have hterminal := Option.isSome_iff_exists.mp (hleaves p hp).2
    rw [Place.consumed?_eq_some, and_iff_right hterminal]
  exact ⟨fun j => (mem_positions_compositionAfter ht hplaces).trans (hposition _),
    (reachesEnd_compositionAfter ht hplaces).trans (hposition _)⟩

/-- The leaves of the closures, and those that come after `a` and `b`. -/
theorem composition_first_follow_last_closures :
    read closures.text = .ok closures ∧
      (∀ i, i ∈ closures.root.initialComposition.positions ↔ closures.root.First i) ∧
      (closures.root.initialComposition.reachesEnd = true ↔ closures.root.expression.Matches []) ∧
      ∃ leaves : List Place, leaves.map (fun p => p.subtree.position?) = [some 1, some 3] ∧
        (∀ p ∈ leaves, p ∈ closures.leaves ∧ p.terminal?.isSome = true) ∧
        (∀ j, j ∈ (closures.root.compositionAfter leaves).positions ↔
          ∃ p ∈ leaves, ∃ i, p.subtree.position? = some i ∧ closures.root.Follow i j) ∧
        ((closures.root.compositionAfter leaves).reachesEnd = true ↔
          ∃ p ∈ leaves, ∃ i, p.subtree.position? = some i ∧ closures.root.Last i) := by
  obtain ⟨hfirst, hempty, hafter⟩ := composition_first_follow_last read_closures
  exact ⟨read_closures, hfirst, hempty, (closures.leaves.eraseIdx 1).take 2, by decide, by decide,
    hafter _ (by decide)⟩

end ExpressionTree

end RegularSets
