import Mathlib.Data.Finset.Powerset
import Mathlib.Data.Finset.Prod
import Mathlib.Order.Interval.Finset.Nat
import RegularSets.Proofs.Expression.Walk
import RegularSets.Proofs.Queue

/-!
# Compositions as states

From a composition that a walk has found, symbols lead on exactly along the words of the expression: the
words that lead to an end spell the marked words that the first visits admit (`accepts_walkFrom`).

All compositions that can be reached are listed (`mem_compositions`). There is fuel enough, since a
composition is a set of positions with or without the end (`ExpressionTree.space`).
-/

namespace RegularSets

open Visit

variable {t : ExpressionTree} {c c' : Composition} {p : Place} {visits : List Visit} {i : Nat}
  {symbol : Char} {word : List Char}

/-! ## Letters -/

/-- The terminal at a position. -/
def ExpressionTree.letter (t : ExpressionTree) (i : Nat) : Char :=
  (t.leaves[i - 1]?.bind Place.terminal?).getD emptyWordSign

theorem Place.consumed?_eq_some :
    p.consumed? .down = some i ↔
      (∃ symbol, p.terminal? = some symbol) ∧ p.subtree.position? = some i := by
  obtain ⟨subtree, returns⟩ := p
  cases subtree with
  | atom a n j => cases a <;> simp [consumed?, terminal?, Tree.position?]
  | modify m p n d => simp [consumed?, terminal?]
  | join k p n l r => simp [consumed?, terminal?]

theorem Tree.labelled_of_places {u : Tree} {returns : List Tree} {letter : Nat → Char}
    (h : ∀ p ∈ u.places returns, ∀ c i, p.terminal? = some c → p.subtree.position? = some i →
      letter i = c) : u.Labelled letter := by
  induction u generalizing returns with
  | atom a n i =>
    cases a with
    | terminal c => exact h _ mem_places_self c i rfl rfl
    | emptyWord => trivial
  | modify m p n d ih => exact ih fun p hp => h p (List.mem_cons_of_mem _ hp)
  | join k p n l r ihl ihr =>
    exact ⟨ihl fun p hp => h p (List.mem_cons_of_mem _ (List.mem_append_left _ hp)),
      ihr fun p hp => h p (List.mem_cons_of_mem _ (List.mem_append_right _ hp))⟩

namespace ExpressionTree

variable (ht : t.root.Numbered 0 1)

include ht

theorem letter_eq {symbol : Char} (hp : p ∈ t.root.places []) (hsymbol : p.terminal? = some symbol)
    (hi : p.subtree.position? = some i) : t.letter i = symbol := by
  rw [letter, getElem?_leaves ht hp hi, Option.bind_some, hsymbol, Option.getD_some]

theorem labelled_root : t.root.Labelled t.letter :=
  Tree.labelled_of_places fun _ hp _ _ hsymbol hi => letter_eq ht hp hsymbol hi

end ExpressionTree

/-! ## Successors -/

namespace Composition

theorem mem_leavesIn : p ∈ c.leavesIn t.leaves.toArray ↔
    ∃ i ∈ c.positions, t.leaves[i - 1]? = some p := by
  simp only [leavesIn, List.mem_filterMap, List.getElem?_toArray]

theorem mem_places_of_mem_leavesIn (hp : p ∈ c.leavesIn t.leaves.toArray) :
    p ∈ t.root.places [] := by
  obtain ⟨i, -, hi⟩ := mem_leavesIn.mp hp
  exact (List.mem_filter.mp (List.mem_of_getElem? hi)).1

/-- The places where a walk continues after the leaves with a symbol. -/
def visitsOn (t : ExpressionTree) (c : Composition) (symbol : Char) : List Visit :=
  ((c.leavesIn t.leaves.toArray).filter fun p => p.terminal? = some symbol).map Place.leave

theorem mem_visitsOn {x : Visit} : x ∈ c.visitsOn t symbol ↔
    ∃ p ∈ c.leavesIn t.leaves.toArray, p.terminal? = some symbol ∧ p.leave = x := by
  simp [visitsOn, and_assoc]

theorem within_visitsOn : ∀ x ∈ c.visitsOn t symbol, x.Within t.root := by
  intro x hx
  obtain ⟨p, hp, -, rfl⟩ := mem_visitsOn.mp hx
  exact within_leave (mem_places_of_mem_leavesIn hp)

theorem mem_successors : (symbol, c') ∈ c.successors t.root t.leaves.toArray ↔
    (∃ p ∈ c.leavesIn t.leaves.toArray, p.terminal? = some symbol) ∧
      c' = t.root.walkFrom (c.visitsOn t symbol) := by
  simp only [successors, List.mem_map, mem_ascending, List.mem_filterMap, Prod.mk.injEq]
  constructor
  · intro h
    obtain ⟨_, hsymbol, rfl, rfl⟩ := h
    exact ⟨hsymbol, rfl⟩
  · intro h
    obtain ⟨hsymbol, rfl⟩ := h
    exact ⟨symbol, hsymbol, rfl, rfl⟩

/-- Symbols lead along the word to a composition that reaches the end. -/
def Accepts (t : ExpressionTree) (c : Composition) : List Char → Prop
  | [] => c.reachesEnd = true
  | symbol :: word =>
    ∃ c', (symbol, c') ∈ c.successors t.root t.leaves.toArray ∧ Accepts t c' word

/-- The leaves of a composition are the terminals that the first visits lead to. -/
theorem mem_leavesIn_walkFrom (ht : t.root.Numbered 0 1) (hvisits : ∀ x ∈ visits, x.Within t.root) :
    p ∈ (t.root.walkFrom visits).leavesIn t.leaves.toArray ∧ p.terminal? = some symbol ↔
      ∃ x ∈ visits, ∃ i, x.Leads (.come p .down) ∧ p.consumed? .down = some i ∧
        t.letter i = symbol := by
  constructor
  · intro h
    obtain ⟨hmem, hsymbol⟩ := h
    obtain ⟨i, hi, hp⟩ := mem_leavesIn.mp hmem
    obtain ⟨x, hx, q, hleads, hq⟩ := (Tree.mem_positions_walkFrom ht hvisits).mp hi
    have hplace : q ∈ t.root.places [] := (hvisits x hx).of_leads hleads
    obtain ⟨-, hposition⟩ := Place.consumed?_eq_some.mp hq
    rw [ExpressionTree.getElem?_leaves ht hplace hposition] at hp
    cases hp
    exact ⟨x, hx, i, hleads, hq, ExpressionTree.letter_eq ht hplace hsymbol hposition⟩
  · intro h
    obtain ⟨x, hx, i, hleads, hp, rfl⟩ := h
    have hplace : p ∈ t.root.places [] := (hvisits x hx).of_leads hleads
    obtain ⟨⟨symbol, hsymbol⟩, hposition⟩ := Place.consumed?_eq_some.mp hp
    refine ⟨mem_leavesIn.mpr ⟨i, ?_, ExpressionTree.getElem?_leaves ht hplace hposition⟩, ?_⟩
    · exact (Tree.mem_positions_walkFrom ht hvisits).mpr ⟨x, hx, p, hleads, hp⟩
    · rw [hsymbol, ExpressionTree.letter_eq ht hplace hsymbol hposition]

/-- From what a walk found, symbols lead along the words that the first visits admit. -/
theorem accepts_walkFrom (ht : t.root.Numbered 0 1) (hvisits : ∀ x ∈ visits, x.Within t.root) :
    (t.root.walkFrom visits).Accepts t word ↔
      ∃ u, (∃ x ∈ visits, x.Admits u) ∧ u.map t.letter = word := by
  induction word generalizing visits with
  | nil =>
    rw [Accepts, Tree.reachesEnd_walkFrom ht hvisits]
    simp only [List.map_eq_nil_iff, exists_eq_right, admits_iff_finds, Finds]
  | cons symbol word ih =>
    constructor
    · intro h
      obtain ⟨c', hc', hword⟩ := h
      obtain ⟨-, rfl⟩ := mem_successors.mp hc'
      obtain ⟨u, ⟨y, hy, hu⟩, rfl⟩ := (ih within_visitsOn).mp hword
      obtain ⟨p, hp, hsymbol, rfl⟩ := mem_visitsOn.mp hy
      obtain ⟨x, hx, i, hleads, hi, rfl⟩ := (mem_leavesIn_walkFrom ht hvisits).mp ⟨hp, hsymbol⟩
      refine ⟨i :: u, ⟨x, hx, admits_iff_finds.mpr ⟨p, hleads, hi, ?_⟩⟩, rfl⟩
      exact admits_leave.mp hu
    · intro h
      obtain ⟨u, ⟨x, hx, hu⟩, hword⟩ := h
      obtain ⟨i, u, rfl, rfl, rfl⟩ := List.map_eq_cons_iff.mp hword
      obtain ⟨p, hleads, hi, hu⟩ := admits_iff_finds.mp hu
      obtain ⟨hp, hsymbol⟩ := (mem_leavesIn_walkFrom ht hvisits).mpr ⟨x, hx, i, hleads, hi, rfl⟩
      refine ⟨_, mem_successors.mpr ⟨⟨p, hp, hsymbol⟩, rfl⟩, (ih within_visitsOn).mpr ⟨u, ?_, rfl⟩⟩
      exact ⟨p.leave, mem_visitsOn.mpr ⟨p, hp, hsymbol, rfl⟩, admits_leave.mpr hu⟩

end Composition

namespace ExpressionTree

/-! ## All compositions -/

/-- The compositions that symbols lead to from `c`. -/
def nextOf (t : ExpressionTree) (c : Composition) : List Composition :=
  (c.successors t.root t.leaves.toArray).map (·.2)

theorem mem_nextOf :
    c' ∈ t.nextOf c ↔ ∃ symbol, (symbol, c') ∈ c.successors t.root t.leaves.toArray := by
  simp [nextOf]

/-- Every set of positions, with the end and without it. -/
noncomputable def space (t : ExpressionTree) : Finset Composition :=
  ((Finset.Icc 1 t.leaves.length).powerset ×ˢ Finset.univ).image fun s =>
    { positions := ascending s.1.toList, reachesEnd := s.2 }

theorem card_space_le (t : ExpressionTree) : t.space.card ≤ Nat.pow 2 (t.leaves.length + 1) := by
  refine Finset.card_image_le.trans ?_
  rw [Finset.card_product, Finset.card_powerset, Nat.card_Icc, Nat.add_sub_cancel]
  exact Nat.le_refl _

theorem walkFrom_mem_space (ht : t.root.Numbered 0 1) (hvisits : ∀ x ∈ visits, x.Within t.root) :
    t.root.walkFrom visits ∈ t.space := by
  obtain ⟨w, heq, -⟩ := Tree.walkFrom_spec ht hvisits
  have hpositions : (t.root.walkFrom visits).positions = ascending w.positions :=
    congrArg Composition.positions heq
  refine Finset.mem_image.mpr ⟨(w.positions.toFinset, w.reachesEnd), ?_, ?_⟩
  · refine Finset.mem_product.mpr ⟨Finset.mem_powerset.mpr fun i hi => ?_, Finset.mem_univ _⟩
    rw [List.mem_toFinset, ← mem_ascending, ← hpositions] at hi
    obtain ⟨x, hx, p, hleads, hp⟩ := (Tree.mem_positions_walkFrom ht hvisits).mp hi
    have hmem := Tree.mem_range'_of_position? ht ((hvisits x hx).of_leads hleads)
      (Place.consumed?_eq_some.mp hp).2
    have hlength : t.leaves.length = t.root.numLeaves := Tree.length_leafPlaces ht []
    rw [List.mem_range'_1] at hmem
    rw [Finset.mem_Icc, hlength]
    omega
  · have hset : ascending w.positions.toFinset.toList = ascending w.positions :=
      ascending_congr fun i => by simp
    rw [heq, Walk.composition, hset]

variable (ht : t.root.Numbered 0 1)

include ht

theorem initialComposition_mem_space : t.root.initialComposition ∈ t.space :=
  walkFrom_mem_space ht within_root

theorem mem_space_of_mem_nextOf (h : c' ∈ t.nextOf c) : c' ∈ t.space := by
  obtain ⟨symbol, hsymbol⟩ := mem_nextOf.mp h
  rw [(Composition.mem_successors.mp hsymbol).2]
  exact walkFrom_mem_space ht Composition.within_visitsOn

theorem mem_compositions :
    c ∈ t.compositions ↔ Queue.Leads t.nextOf t.root.initialComposition c := by
  have hexplore : c ∈ t.compositions ↔
      ∃ x ∈ [t.root.initialComposition], Queue.Leads t.nextOf x c :=
    Queue.mem_explore t.space (List.forall_mem_singleton.mpr (initialComposition_mem_space ht))
      (fun _ _ _ => mem_space_of_mem_nextOf ht) t.card_space_le
  simpa using hexplore

theorem initial_mem_compositions : t.root.initialComposition ∈ t.compositions :=
  (mem_compositions ht).mpr .refl

theorem mem_compositions_of_mem_successors (hc : c ∈ t.compositions)
    (hsymbol : (symbol, c') ∈ c.successors t.root t.leaves.toArray) : c' ∈ t.compositions :=
  (mem_compositions ht).mpr (((mem_compositions ht).mp hc).tail (mem_nextOf.mpr ⟨symbol, hsymbol⟩))

end ExpressionTree

end RegularSets
