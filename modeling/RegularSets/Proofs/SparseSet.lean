import Mathlib.Data.List.Induction
import RegularSets.Distinct
import RegularSets.SparseSet

/-!
# Sparse sets as lists without repetition

A slot that is out of date may point at a member that was added later, so membership is decided by
the slot and the member together. `Valid` is the invariant behind this: every member's slot points at
it, whatever the slots of other numbers say. Under it `contains` is membership in the list of
members (`contains_iff`) and `insert` is `appendNew` (`toList_insert_eq`).

Nothing of an earlier round shows through: after any calls the set holds what was inserted since it was
last cleared, as it was inserted (`toList_performAll`).
-/

namespace RegularSets.SparseSet

/-- Every member is below the bound and stands where its slot says. Nothing is said about the slots
of other numbers. -/
structure Valid (set : SparseSet) (bound : Nat) : Prop where
  size_slots : set.slots.size = bound
  slot_eq : ∀ {i x : Nat}, set.members[i]? = some x → set.slots[x]? = some i

variable {set : SparseSet} {bound : Nat}

theorem valid_empty (bound : Nat) : (empty bound).Valid bound :=
  ⟨by simp [empty], by simp [empty]⟩

/-- Clearing keeps the invariant, since it speaks of members alone. -/
theorem valid_clear (h : set.Valid bound) : set.clear.Valid bound :=
  ⟨h.size_slots, by simp [clear]⟩

theorem Valid.lt_of_mem (h : set.Valid bound) {x : Nat} (hx : x ∈ set.toList) : x < bound := by
  obtain ⟨i, hi⟩ := List.mem_iff_getElem?.mp hx
  have hslot := h.slot_eq (i := i) (x := x) (by simpa [toList] using hi)
  obtain ⟨hlt, -⟩ := Array.getElem?_eq_some_iff.mp hslot
  exact h.size_slots ▸ hlt

theorem contains_iff (h : set.Valid bound) {x : Nat} : set.contains x = true ↔ x ∈ set.toList := by
  rw [List.mem_iff_getElem?]
  unfold contains
  split
  · next hx =>
    refine ⟨nofun, fun ⟨i, hi⟩ => ?_⟩
    have hslot := h.slot_eq (i := i) (x := x) (by simpa [toList] using hi)
    rw [hx] at hslot
    cases hslot
  · next place hx =>
    rw [decide_eq_true_iff]
    refine ⟨fun hm => ⟨place, by simpa [toList] using hm⟩, fun ⟨i, hi⟩ => ?_⟩
    have hm : set.members[i]? = some x := by simpa [toList] using hi
    have hslot := h.slot_eq hm
    rw [hx] at hslot
    cases hslot
    exact hm

theorem toList_insert_eq (h : set.Valid bound) (x : Nat) :
    (set.insert x).toList = appendNew set.toList x := by
  rw [toList_insert]
  by_cases hx : x ∈ set.toList
  · rw [if_pos ((contains_iff h).mpr hx), appendNew_of_mem hx]
  · rw [if_neg (mt (contains_iff h).mp hx), appendNew_of_not_mem hx]

/-- A new member takes the next place, and its slot is the only one that changes. -/
theorem valid_insert (h : set.Valid bound) {x : Nat} (hx : x < bound) :
    (set.insert x).Valid bound := by
  unfold insert
  split
  · exact h
  · next hnew =>
    refine ⟨by simpa using h.size_slots, fun {i y} hi => ?_⟩
    rw [Array.getElem?_push] at hi
    split at hi
    · next hlast =>
      cases hi
      rw [hlast, Array.getElem?_setIfInBounds_self_of_lt (h.size_slots ▸ hx)]
    · have hne : x ≠ y := by
        rintro rfl
        refine hnew ((contains_iff h).mpr (List.mem_iff_getElem?.mpr ⟨i, ?_⟩))
        simpa [toList] using hi
      rw [Array.getElem?_setIfInBounds_ne hne]
      exact h.slot_eq hi

/-! ## Inserting several numbers -/

theorem valid_foldl_insert {xs : List Nat} (h : set.Valid bound) (hxs : ∀ x ∈ xs, x < bound) :
    (xs.foldl insert set).Valid bound := by
  induction xs generalizing set with
  | nil => exact h
  | cons x xs ih =>
    exact ih (valid_insert h (hxs x List.mem_cons_self)) fun y hy => hxs y (List.mem_cons_of_mem x hy)

theorem mem_foldl_insert {xs : List Nat} (h : set.Valid bound) (hxs : ∀ x ∈ xs, x < bound)
    {y : Nat} : y ∈ (xs.foldl insert set).toList ↔ y ∈ set.toList ∨ y ∈ xs := by
  induction xs generalizing set with
  | nil => simp
  | cons x xs ih =>
    rw [List.foldl_cons, ih (valid_insert h (hxs x List.mem_cons_self))
      fun z hz => hxs z (List.mem_cons_of_mem x hz), toList_insert_eq h, mem_appendNew, or_assoc,
      List.mem_cons]

theorem nodup_toList (h : set.Valid bound) : set.toList.Nodup := by
  rw [List.Nodup, List.pairwise_iff_getElem]
  intro i j hi hj hij heq
  have hslot : ∀ {k : Nat} (hk : k < set.toList.length), set.slots[set.toList[k]]? = some k :=
    fun hk => h.slot_eq (Array.getElem?_toList ▸ List.getElem?_eq_getElem hk)
  have hj' := hslot hj
  rw [← heq, hslot hi] at hj'
  exact absurd (Option.some.inj hj') (Nat.ne_of_lt hij)

/-! ## Calls -/

variable {calls : List Call} {call : Call}

/-- The number that a call puts in. -/
def Call.inserted? : Call → Option Nat
  | insert x => some x
  | contains _ => none
  | clear => none

/-- The numbers of the insertions since the set was last cleared, in the order of the calls. -/
def inserted (calls : List Call) : List Nat :=
  (calls.reverse.takeWhile (· ≠ .clear)).reverse.filterMap Call.inserted?

@[simp]
theorem inserted_append_insert (calls : List Call) (x : Nat) :
    inserted (calls ++ [.insert x]) = inserted calls ++ [x] := by
  simp [inserted, Call.inserted?]

@[simp]
theorem inserted_append_contains (calls : List Call) (x : Nat) :
    inserted (calls ++ [.contains x]) = inserted calls := by
  simp [inserted, Call.inserted?]

@[simp]
theorem inserted_append_clear (calls : List Call) : inserted (calls ++ [.clear]) = [] := by
  simp [inserted]

/-- Every call keeps the invariant if its number is below the bound. -/
theorem Valid.perform (h : set.Valid bound) (hcall : ∀ x ∈ call.argument?, x < bound) :
    (set.perform call).2.Valid bound := by
  cases call with
  | insert x => exact valid_insert h (hcall x rfl)
  | contains x => exact h
  | clear => exact valid_clear h

theorem Valid.performAll (h : set.Valid bound)
    (hcalls : ∀ call ∈ calls, ∀ x ∈ call.argument?, x < bound) :
    (set.performAll calls).Valid bound := by
  induction calls generalizing set with
  | nil => exact h
  | cons call calls ih =>
    obtain ⟨hcall, hrest⟩ := List.forall_mem_cons.mp hcalls
    exact ih (h.perform hcall) hrest

theorem performAll_append (set : SparseSet) (calls : List Call) (call : Call) :
    set.performAll (calls ++ [call]) = ((set.performAll calls).perform call).2 := by
  rw [SparseSet.performAll, List.foldl_append]
  rfl

/-- The elements are the numbers inserted since the set was last cleared, each where it first came. -/
theorem toList_performAll (calls : List Call)
    (hcalls : ∀ call ∈ calls, ∀ x ∈ call.argument?, x < bound) :
    ((empty bound).performAll calls).toList = (inserted calls).eraseDups := by
  -- from the end of the history, where the next call comes
  induction calls using List.reverseRecOn with
  | nil => rfl
  | append_singleton calls call ih =>
    obtain ⟨hbefore, -⟩ := List.forall_mem_append.mp hcalls
    have hvalid := (valid_empty bound).performAll hbefore
    have hlist := ih hbefore
    rw [performAll_append]
    cases call with
    | insert x =>
      calc (((empty bound).performAll calls).insert x).toList
          = appendNew (inserted calls).eraseDups x := by rw [toList_insert_eq hvalid, hlist]
        _ = (inserted calls ++ [x]).eraseDups := appendNew_eraseDups _ x
        _ = (inserted (calls ++ [.insert x])).eraseDups := by rw [inserted_append_insert]
    | contains x =>
      rw [inserted_append_contains]
      exact hlist
    | clear =>
      rw [inserted_append_clear]
      rfl

/-- **Sets in the order of insertion.** After any calls with numbers below the bound the set lists each
number inserted since it was last cleared once, in the order of insertion. The next call finds a slot for
its number; a test says whether the number is among those, an insertion whether it is not, and then the
number becomes the last one. -/
theorem performAll_spec (bound : Nat) (calls : List Call)
    (h : ∀ call ∈ calls, ∀ x ∈ call.argument?, x < bound) :
    let set := (empty bound).performAll calls
    set.toList = (inserted calls).eraseDups ∧ set.toList.Nodup ∧
      ∀ x < bound, (∃ place, set.slots[x]? = some place) ∧
        set.perform (.contains x) = (some (decide (x ∈ inserted calls)), set) ∧
        (set.perform (.insert x)).1 = some (decide (x ∉ inserted calls)) ∧
        (set.perform (.insert x)).2.toList =
          if x ∈ inserted calls then set.toList else set.toList ++ [x] := by
  intro set
  have hvalid : set.Valid bound := (valid_empty bound).performAll h
  have hlist : set.toList = (inserted calls).eraseDups := toList_performAll calls h
  have hcontains : ∀ x, set.contains x = decide (x ∈ inserted calls) := by
    intro x
    rw [Bool.eq_iff_iff, contains_iff hvalid, hlist, List.mem_eraseDups, decide_eq_true_iff]
  refine ⟨hlist, nodup_toList hvalid, fun x hx => ⟨?_, ?_, ?_, ?_⟩⟩
  · exact ⟨_, Array.getElem?_eq_getElem (hvalid.size_slots.symm ▸ hx)⟩
  · rw [perform, hcontains]
  · rw [perform, hcontains, ← decide_not]
  · rw [perform, toList_insert, hcontains]
    simp

/-- Two rounds: the slot of 3 is from the first one, and points at the place that 1 takes in the second. -/
def secondRound : List Call :=
  [.insert 3, .insert 1, .insert 3, .clear, .contains 1, .insert 1, .insert 0, .insert 1]

theorem performAll_spec_secondRound :
    (∀ call ∈ secondRound, ∀ x ∈ call.argument?, x < 4) ∧
      ((empty 4).performAll secondRound).slots = #[1, 0, 0, 0] ∧
      ((empty 4).performAll secondRound).toList = [1, 0] ∧
      let set := (empty 4).performAll secondRound
      set.toList = (inserted secondRound).eraseDups ∧ set.toList.Nodup ∧
        ∀ x < 4, (∃ place, set.slots[x]? = some place) ∧
          set.perform (.contains x) = (some (decide (x ∈ inserted secondRound)), set) ∧
          (set.perform (.insert x)).1 = some (decide (x ∉ inserted secondRound)) ∧
          (set.perform (.insert x)).2.toList =
            if x ∈ inserted secondRound then set.toList else set.toList ++ [x] :=
  ⟨by decide, by decide, by decide, performAll_spec 4 secondRound (by decide)⟩

end RegularSets.SparseSet
