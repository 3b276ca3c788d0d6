import Std.Data.ExtTreeSet

/-!
# Lists without repetition

`appendNew` adds an element at the end of a list unless it is there already, `ascending` lists the
distinct elements of a list in increasing order, and `lastPlace?` finds an element. Main statements:
the first two keep exactly the elements that were given (`mem_appendNew`, `mem_ascending`),
`appendNew` keeps a list free of repetition, and `ascending` is strictly increasing.
-/

namespace RegularSets

variable {α : Type}

/-- `x` at the end of `l`, unless it is in `l`. -/
def appendNew [DecidableEq α] (l : List α) (x : α) : List α :=
  if x ∈ l then l else l ++ [x]

/-- The distinct elements of `l` in increasing order. -/
def ascending [Ord α] [Std.TransOrd α] (l : List α) : List α :=
  (Std.ExtTreeSet.ofList l compare).toList

/-- The last place of `x` in `l`. -/
def lastPlace? [DecidableEq α] (x : α) : List α → Option Nat
  | [] => none
  | y :: rest =>
    match lastPlace? x rest with
    | some i => some (i + 1)
    | none => if y = x then some 0 else none

section AppendNew

variable [DecidableEq α] {l : List α} {x y : α}

@[simp]
theorem mem_appendNew : y ∈ appendNew l x ↔ y ∈ l ∨ y = x := by
  unfold appendNew
  split
  · next h => exact ⟨Or.inl, fun hy => hy.elim id fun e => e ▸ h⟩
  · simp

theorem appendNew_of_mem (h : x ∈ l) : appendNew l x = l :=
  if_pos h

theorem appendNew_of_not_mem (h : x ∉ l) : appendNew l x = l ++ [x] :=
  if_neg h

theorem nodup_appendNew (h : l.Nodup) : (appendNew l x).Nodup := by
  unfold appendNew
  split
  · exact h
  · next hx =>
    rw [List.nodup_append]
    refine ⟨h, by simp, fun a ha b hb hab => hx ?_⟩
    rw [List.mem_singleton] at hb
    exact hb ▸ hab ▸ ha

theorem appendNew_ne_nil : appendNew l x ≠ [] := by
  intro h
  have : x ∈ appendNew l x := mem_appendNew.mpr (Or.inr rfl)
  rw [h] at this
  cases this

/-- The elements of the list keep their places. -/
theorem getElem?_appendNew {i : Nat} (hi : l[i]? = some y) : (appendNew l x)[i]? = some y := by
  unfold appendNew
  split
  · exact hi
  · rw [List.getElem?_append_left (List.getElem?_eq_some_iff.mp hi).1, hi]

theorem mem_foldl_appendNew {new : List α} : y ∈ new.foldl appendNew l ↔ y ∈ l ∨ y ∈ new := by
  induction new generalizing l with
  | nil => simp
  | cons x new ih => rw [List.foldl_cons, ih, mem_appendNew, or_assoc, List.mem_cons]

theorem nodup_foldl_appendNew {new : List α} (h : l.Nodup) : (new.foldl appendNew l).Nodup := by
  induction new generalizing l with
  | nil => exact h
  | cons x new ih => exact ih (nodup_appendNew h)

/-- Distinct new elements are appended as they are. -/
theorem foldl_appendNew_of_nodup {new : List α} (h : (l ++ new).Nodup) :
    new.foldl appendNew l = l ++ new := by
  induction new generalizing l with
  | nil => simp
  | cons x new ih =>
    have hx : x ∉ l := fun hmem =>
      (List.nodup_append.mp h).2.2 x hmem x List.mem_cons_self rfl
    rw [List.append_cons] at h
    rw [List.foldl_cons, appendNew_of_not_mem hx, ih h, List.append_assoc, List.singleton_append]

end AppendNew

section EraseDups

variable [DecidableEq α]

theorem eraseDups_sublist (l : List α) : l.eraseDups.Sublist l :=
  match l with
  | [] => .slnil
  | x :: rest => by
    rw [List.eraseDups_cons]
    exact ((eraseDups_sublist _).trans List.filter_sublist).cons_cons x
termination_by l.length
decreasing_by exact Nat.lt_succ_of_le (List.length_filter_le _ _)

theorem nodup_eraseDups (l : List α) : l.eraseDups.Nodup :=
  match l with
  | [] => List.nodup_nil
  | x :: rest => by
    rw [List.eraseDups_cons, List.nodup_cons]
    exact ⟨by simp [List.mem_eraseDups], nodup_eraseDups _⟩
termination_by l.length
decreasing_by exact Nat.lt_succ_of_le (List.length_filter_le _ _)

theorem appendNew_eraseDups (l : List α) (x : α) :
    appendNew l.eraseDups x = (l ++ [x]).eraseDups := by
  by_cases h : x ∈ l
  · rw [appendNew_of_mem (List.mem_eraseDups.mpr h), List.eraseDups_append]
    simp [List.removeAll, h]
  · rw [appendNew_of_not_mem (mt List.mem_eraseDups.mp h), List.eraseDups_append]
    simp [List.removeAll, h, List.eraseDups_cons]

/-- Appending what is new, one element after the other, keeps first occurrences. -/
theorem foldl_appendNew_eraseDups (l new : List α) :
    new.foldl appendNew l.eraseDups = (l ++ new).eraseDups := by
  induction new generalizing l with
  | nil => rw [List.append_nil, List.foldl_nil]
  | cons x new ih => rw [List.foldl_cons, appendNew_eraseDups, ih, ← List.append_cons]

end EraseDups

section Keys

variable {κ β : Type} [DecidableEq κ] {l : List α} {x : α} {k : κ}

theorem flatMap_ite_of_not_mem (key : α → κ) (hk : k ∉ l.map key) (f : α → List β) :
    (l.flatMap fun y => if key y = k then f y else []) = [] := by
  refine List.flatMap_eq_nil_iff.mpr fun y hy => if_neg ?_
  rintro rfl
  exact hk (List.mem_map_of_mem hy)

/-- Of elements with distinct keys only `x` has its key. -/
theorem flatMap_ite_of_mem (key : α → κ) (hdistinct : (l.map key).Nodup) (hx : x ∈ l)
    (f : α → List β) :
    (l.flatMap fun y => if key y = key x then f y else []) = f x := by
  induction l with
  | nil => cases hx
  | cons y rest ih =>
    rw [List.map_cons, List.nodup_cons] at hdistinct
    rw [List.flatMap_cons]
    rcases List.mem_cons.mp hx with rfl | hx
    · rw [if_pos rfl, flatMap_ite_of_not_mem key hdistinct.1, List.append_nil]
    · have hne : key y ≠ key x := fun heq => hdistinct.1 (heq ▸ List.mem_map_of_mem hx)
      rw [if_neg hne, List.nil_append, ih hdistinct.2 hx]

end Keys

section LastPlace

variable [DecidableEq α]

theorem lastPlace?_lt {x : α} {l : List α} {i : Nat} (h : lastPlace? x l = some i) :
    i < l.length := by
  induction l generalizing i with
  | nil => cases h
  | cons y rest ih =>
    rw [lastPlace?] at h
    split at h
    · next j hj =>
      cases h
      exact Nat.succ_lt_succ (ih hj)
    · split at h
      · cases h
        exact Nat.zero_lt_succ _
      · cases h

theorem getElem?_of_lastPlace? {x : α} {l : List α} {i : Nat} (h : lastPlace? x l = some i) :
    l[i]? = some x := by
  induction l generalizing i with
  | nil => cases h
  | cons y rest ih =>
    rw [lastPlace?] at h
    split at h
    · next j hj =>
      cases h
      exact ih hj
    · split at h
      · next hy =>
        cases h
        exact congrArg some hy
      · cases h

theorem lastPlace?_eq_none {x : α} {l : List α} : lastPlace? x l = none ↔ x ∉ l := by
  induction l with
  | nil => simp [lastPlace?]
  | cons y rest ih =>
    rw [lastPlace?]
    split
    · next j hj =>
      have hmem : x ∈ rest := List.mem_of_getElem? (getElem?_of_lastPlace? hj)
      simp [hmem]
    · next hj =>
      rw [List.mem_cons, not_or, ← ih]
      split
      · next hy => simp [hy]
      · next hy => simpa [hj] using Ne.symm hy

/-- Without repetition the last place is the only one. -/
theorem lastPlace?_eq_some_iff {x : α} {l : List α} {i : Nat} (h : l.Nodup) :
    lastPlace? x l = some i ↔ l[i]? = some x := by
  refine ⟨getElem?_of_lastPlace?, fun hi => ?_⟩
  cases hj : lastPlace? x l with
  | none => exact absurd (List.mem_of_getElem? hi) (lastPlace?_eq_none.mp hj)
  | some j =>
    have hx := getElem?_of_lastPlace? hj
    have hlt : i < l.length := (List.getElem?_eq_some_iff.mp hi).1
    exact congrArg some ((List.getElem?_inj hlt h).mp (hi.trans hx.symm)).symm

end LastPlace

section Ascending

variable [Ord α] [Std.TransOrd α]

@[simp]
theorem mem_ascending [Std.LawfulEqOrd α] [BEq α] [Std.LawfulBEqOrd α] [LawfulBEq α] {l : List α}
    {x : α} :
    x ∈ ascending l ↔ x ∈ l := by
  unfold ascending
  rw [Std.ExtTreeSet.mem_toList, Std.ExtTreeSet.mem_ofList, List.contains_iff_mem]

/-- Lists with the same elements are listed in increasing order as one. -/
theorem ascending_congr [Std.LawfulEqOrd α] [BEq α] [Std.LawfulBEqOrd α] [LawfulBEq α]
    {l l' : List α} (h : ∀ x, x ∈ l ↔ x ∈ l') : ascending l = ascending l' := by
  refine congrArg Std.ExtTreeSet.toList (Std.ExtTreeSet.ext_mem fun x => ?_)
  rw [Std.ExtTreeSet.mem_ofList, Std.ExtTreeSet.mem_ofList, List.contains_iff_mem,
    List.contains_iff_mem, h]

theorem pairwise_ascending (l : List α) :
    (ascending l).Pairwise fun a b => compare a b = .lt :=
  Std.ExtTreeSet.ordered_toList

theorem nodup_of_pairwise_compare {l : List α} (h : l.Pairwise fun a b => compare a b = .lt) :
    l.Nodup :=
  h.imp fun hlt heq => by
    subst heq
    rw [Std.ReflOrd.compare_self] at hlt
    cases hlt

/-- A list in increasing order is the one that `ascending` makes of its elements. -/
theorem eq_ascending [Std.LawfulEqOrd α] [BEq α] [Std.LawfulBEqOrd α] [LawfulBEq α] {l l' : List α}
    (hsorted : l.Pairwise fun a b => compare a b = .lt) (h : ∀ x, x ∈ l ↔ x ∈ l') :
    l = ascending l' := by
  have hascending := pairwise_ascending l'
  refine List.Perm.eq_of_pairwise (fun _ _ _ _ hab hba => ?_) hsorted hascending
    ((List.perm_ext_iff_of_nodup (nodup_of_pairwise_compare hsorted)
      (nodup_of_pairwise_compare hascending)).mpr fun x => ?_)
  · exact absurd hba (Std.OrientedCmp.not_lt_of_lt hab)
  · rw [h, mem_ascending]

end Ascending

end RegularSets
