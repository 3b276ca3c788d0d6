import Mathlib.Data.Finset.Card
import Mathlib.Logic.Relation
import RegularSets.Distinct
import RegularSets.Queue

/-!
# Exploring with a queue

`explore` lists exactly what can be reached from the elements of the queue by going from neighbour to
neighbour, each element once (`mem_explore`, `nodup_explore`), provided there is enough fuel. Enough is
the size of any finite set that holds the elements of the queue and is closed under neighbours: every
round hands out an element of it for the first time. From one root the list is in order for every
order that is breadth first (`BreadthFirst.pairwise_explore`).

The invariant (`Closed`): nothing is held twice, and all neighbours of what was handed out are known.
Whatever else the rounds keep holds at the end as well (`exists_explored`). For the order it is that
what was discovered so far comes before all that is missing (`Foremost`), which also holds while the
neighbours of one element are put in.
-/

namespace RegularSets.Queue

variable {α : Type} {neighbours : α → List α} {q rest : Queue α} {x y : α}

/-- Following neighbours from `x` leads to `y`. -/
abbrev Leads (neighbours : α → List α) (x y : α) : Prop :=
  Relation.ReflTransGen (fun x y => y ∈ neighbours x) x y

/-- Nothing is held twice, and the neighbours of what was handed out are known. -/
structure Closed (neighbours : α → List α) (q : Queue α) : Prop where
  nodup : q.discovered.Nodup
  closed : ∀ {x y : α}, x ∈ q.taken → y ∈ neighbours x → y ∈ q.discovered

/-! ## Handing out -/

theorem pop?_eq_some (h : q.pop? = some (x, rest)) :
    q.waiting = x :: rest.waiting ∧ rest.taken = x :: q.taken := by
  unfold pop? at h
  split at h
  · cases h
  · next hw =>
    cases h
    exact ⟨hw, rfl⟩

theorem pop?_eq_none (h : q.pop? = none) : q.waiting = [] := by
  unfold pop? at h
  split at h
  · next hw => exact hw
  · cases h

theorem mem_discovered_of_pop? (h : q.pop? = some (x, rest)) : x ∈ q.discovered := by
  simp [discovered, (pop?_eq_some h).1]

/-- What a queue with nothing left to hand out has handed out is closed under neighbours. -/
theorem Closed.mem_taken_iff (h : Closed neighbours q) (hw : q.waiting = []) :
    y ∈ q.taken ↔ ∃ x ∈ q.discovered, Leads neighbours x y := by
  have hdisc : ∀ {z}, z ∈ q.discovered ↔ z ∈ q.taken := by simp [discovered, hw]
  constructor
  · exact fun hy => ⟨y, hdisc.mpr hy, Relation.ReflTransGen.refl⟩
  · rintro ⟨x, hx, hxy⟩
    induction hxy with
    | refl => exact hdisc.mp hx
    | tail _ hz ih => exact hdisc.mp (h.closed ih hz)

variable [DecidableEq α]

/-! ## Putting in -/

theorem discovered_push_eq : (q.push x).discovered = appendNew q.discovered x :=
  discovered_push

theorem taken_push : (q.push x).taken = q.taken := by
  unfold push
  split <;> rfl

theorem taken_pushAll (xs : List α) : (q.pushAll xs).taken = q.taken := by
  induction xs generalizing q with
  | nil => rfl
  | cons x xs ih => exact (ih (q := q.push x)).trans taken_push

/-- What is put in is appended to what was discovered, unless it was. -/
theorem discovered_pushAll (xs : List α) :
    (q.pushAll xs).discovered = xs.foldl appendNew q.discovered := by
  induction xs generalizing q with
  | nil => rfl
  | cons x xs ih =>
    refine (ih (q := q.push x)).trans ?_
    rw [discovered_push_eq, List.foldl_cons]

theorem mem_discovered_pushAll (xs : List α) :
    y ∈ (q.pushAll xs).discovered ↔ y ∈ q.discovered ∨ y ∈ xs := by
  rw [discovered_pushAll, mem_foldl_appendNew]

theorem nodup_discovered_pushAll (h : q.discovered.Nodup) (xs : List α) :
    (q.pushAll xs).discovered.Nodup :=
  discovered_pushAll xs ▸ nodup_foldl_appendNew h

theorem taken_ofList (roots : List α) : (ofList roots).taken = [] :=
  taken_pushAll roots

theorem mem_discovered_ofList {roots : List α} : y ∈ (ofList roots).discovered ↔ y ∈ roots := by
  rw [ofList, mem_discovered_pushAll]
  simp [discovered]

theorem closed_ofList (neighbours : α → List α) (roots : List α) :
    Closed neighbours (ofList roots) :=
  ⟨nodup_discovered_pushAll (by simp [discovered]) roots, fun hx => by
    rw [taken_ofList] at hx
    cases hx⟩

/-! ## One round -/

/-- Handing out an element and putting in its neighbours keeps the invariant. -/
theorem Closed.round (h : Closed neighbours q) (hpop : q.pop? = some (x, rest)) :
    Closed neighbours (rest.pushAll (neighbours x)) := by
  have hdisc := discovered_pop? hpop
  refine ⟨nodup_discovered_pushAll (hdisc ▸ h.nodup) _, fun {y z} hy hz => ?_⟩
  rw [taken_pushAll, (pop?_eq_some hpop).2] at hy
  rw [mem_discovered_pushAll, hdisc]
  rcases List.mem_cons.mp hy with rfl | hy
  · exact Or.inr hz
  · exact Or.inl (h.closed hy hz)

/-- A round leaves the same elements to be reached. -/
theorem leads_round_iff (hpop : q.pop? = some (x, rest)) :
    (∃ z ∈ (rest.pushAll (neighbours x)).discovered, Leads neighbours z y) ↔
      ∃ z ∈ q.discovered, Leads neighbours z y := by
  simp only [mem_discovered_pushAll, discovered_pop? hpop]
  constructor
  · intro h
    rcases h with ⟨z, hz | hz, hzy⟩
    · exact ⟨z, hz, hzy⟩
    · exact ⟨x, mem_discovered_of_pop? hpop, Relation.ReflTransGen.head hz hzy⟩
  · exact fun ⟨z, hz, hzy⟩ => ⟨z, Or.inl hz, hzy⟩

/-! ## All rounds -/

variable {space : Finset α} {fuel : Nat}

/-- Without fuel everything in the finite set has been handed out. -/
theorem Closed.waiting_eq_nil (h : Closed neighbours q) (hq : ∀ x ∈ q.discovered, x ∈ space)
    (hcard : space.card ≤ q.taken.length) : q.waiting = [] := by
  have hle : q.discovered.length ≤ space.card := by
    rw [← List.toFinset_card_of_nodup h.nodup]
    exact Finset.card_le_card fun x hx => hq x (List.mem_toFinset.mp hx)
  rw [discovered, List.length_append, List.length_reverse] at hle
  exact List.eq_nil_of_length_eq_zero (by omega)

/-- What every round keeps holds when nothing is left to hand out, and then all that was discovered
is listed. -/
theorem exists_explored {P : Queue α → Prop} (h : Closed neighbours q)
    (hq : ∀ x ∈ q.discovered, x ∈ space) (hclosed : ∀ x ∈ space, ∀ y ∈ neighbours x, y ∈ space)
    (hcard : space.card ≤ q.taken.length + fuel)
    (hround : ∀ {q rest : Queue α} {x : α}, Closed neighbours q → q.pop? = some (x, rest) → P q →
      P (rest.pushAll (neighbours x)))
    (hP : P q) :
    ∃ q' : Queue α, explore neighbours fuel q = q'.discovered ∧ q'.waiting = [] ∧
      Closed neighbours q' ∧ P q' := by
  have hdone : ∀ {q : Queue α}, q.waiting = [] → q.taken.reverse = q.discovered := by
    intro q hw
    rw [discovered, hw, List.append_nil]
  induction fuel generalizing q with
  | zero =>
    have hw := h.waiting_eq_nil hq hcard
    exact ⟨q, hdone hw, hw, h, hP⟩
  | succ fuel ih =>
    rw [explore]
    split
    · next hpop =>
      have hw := pop?_eq_none hpop
      exact ⟨q, hdone hw, hw, h, hP⟩
    · next x rest hpop =>
      have hx := hq x (mem_discovered_of_pop? hpop)
      refine ih (h.round hpop) (fun z hz => ?_) ?_ (hround h hpop hP)
      · rw [mem_discovered_pushAll, discovered_pop? hpop] at hz
        exact hz.elim (hq z) (hclosed x hx z)
      · rw [taken_pushAll, (pop?_eq_some hpop).2, List.length_cons]
        omega

section OfList

variable {roots : List α} (space) (hroots : ∀ x ∈ roots, x ∈ space)
  (hclosed : ∀ x ∈ space, ∀ y ∈ neighbours x, y ∈ space) (hcard : space.card ≤ fuel)

include hroots hclosed hcard

theorem exists_explored_ofList {P : Queue α → Prop}
    (hround : ∀ {q rest : Queue α} {x : α}, Closed neighbours q → q.pop? = some (x, rest) → P q →
      P (rest.pushAll (neighbours x)))
    (hP : P (ofList roots)) :
    ∃ q : Queue α, explore neighbours fuel (ofList roots) = q.discovered ∧ q.waiting = [] ∧
      Closed neighbours q ∧ P q :=
  exists_explored (closed_ofList neighbours roots)
    (fun x hx => hroots x (mem_discovered_ofList.mp hx)) hclosed
    (hcard.trans (Nat.le_add_left _ _)) hround hP

/-- With enough fuel `explore` lists what the roots lead to. -/
theorem mem_explore :
    y ∈ explore neighbours fuel (ofList roots) ↔ ∃ x ∈ roots, Leads neighbours x y := by
  obtain ⟨q, heq, hw, h, hleads⟩ := exists_explored_ofList space hroots hclosed hcard
    (P := fun q => (∃ x ∈ q.discovered, Leads neighbours x y) ↔ ∃ x ∈ roots, Leads neighbours x y)
    (fun _ hpop hq => (leads_round_iff hpop).trans hq) (by simp only [mem_discovered_ofList])
  rw [heq, discovered, hw, List.append_nil, List.mem_reverse, h.mem_taken_iff hw, hleads]

theorem nodup_explore : (explore neighbours fuel (ofList roots)).Nodup := by
  obtain ⟨q, heq, -, h, -⟩ := exists_explored_ofList space hroots hclosed hcard
    (P := fun _ => True) (fun _ _ => id) trivial
  exact heq ▸ h.nodup

end OfList

/-! ## The order of discovery -/

/-- The list is the beginning of all that can be reached from the root, in the order `sooner`. -/
structure Foremost (sooner : α → α → Prop) (neighbours : α → List α) (root : α) (l : List α) :
    Prop where
  root_mem : root ∈ l
  leads : ∀ {x : α}, x ∈ l → Leads neighbours root x
  pairwise : l.Pairwise sooner
  missing : ∀ {x z : α}, x ∈ l → Leads neighbours root z → z ∉ l → sooner x z

/-- An order in which the root comes first and a neighbour `y` of `x` comes before everything that is
not the root, not listed with `y` or before it, and next only to elements that do not come before
`x`. -/
structure BreadthFirst (sooner : α → α → Prop) (neighbours : α → List α) (root : α) : Prop where
  first : ∀ {z : α}, Leads neighbours root z → z ≠ root → sooner root z
  step : ∀ {x y z : α} {before after : List α}, Leads neighbours root x →
    neighbours x = before ++ y :: after → Leads neighbours root z → z ≠ root → z ∉ before → z ≠ y →
    (∀ w, Leads neighbours root w → z ∈ neighbours w → w = x ∨ sooner x w) → sooner y z

section Order

variable {sooner : α → α → Prop} {root : α} {l before after : List α}
  (horder : BreadthFirst sooner neighbours root)

include horder

omit [DecidableEq α] in
theorem BreadthFirst.foremost_root : Foremost sooner neighbours root [root] where
  root_mem := List.mem_cons_self
  leads := fun hx => by
    rw [List.mem_singleton.mp hx]
  pairwise := List.pairwise_singleton _ _
  missing := fun hx hz hnot => by
    rw [List.mem_singleton] at hx hnot
    exact hx ▸ horder.first hz hnot

/-- While the neighbours of `x` are put in, nothing is missing that is next to something before `x`. -/
theorem BreadthFirst.foremost_foldl_appendNew (h : Foremost sooner neighbours root l)
    (hx : Leads neighbours root x)
    (hlate : ∀ {z w : α}, z ∉ l → Leads neighbours root w → z ∈ neighbours w → w = x ∨ sooner x w)
    (hnext : neighbours x = before ++ after) (hbefore : ∀ y ∈ before, y ∈ l) :
    Foremost sooner neighbours root (after.foldl appendNew l) := by
  induction after generalizing l before with
  | nil => exact h
  | cons y after ih =>
    have hy : Leads neighbours root y := hx.tail (by simp [hnext])
    have hone : Foremost sooner neighbours root (appendNew l y) := by
      by_cases hmem : y ∈ l
      · rwa [appendNew_of_mem hmem]
      rw [appendNew_of_not_mem hmem]
      refine ⟨List.mem_append_left _ h.root_mem, fun {u} hu => ?_, ?_, fun {u z} hu hz hnot => ?_⟩
      · rcases List.mem_append.mp hu with hu | hu
        · exact h.leads hu
        · exact List.mem_singleton.mp hu ▸ hy
      · refine List.pairwise_append.mpr ⟨h.pairwise, List.pairwise_singleton _ _, fun u hu v hv => ?_⟩
        exact List.mem_singleton.mp hv ▸ h.missing hu hy hmem
      · rw [List.mem_append, List.mem_singleton, not_or] at hnot
        rcases List.mem_append.mp hu with hu | hu
        · exact h.missing hu hz hnot.1
        · rw [List.mem_singleton.mp hu]
          exact horder.step hx hnext hz (fun heq => hnot.1 (heq ▸ h.root_mem))
            (fun hmem => hnot.1 (hbefore z hmem)) hnot.2 fun w hw hzw => hlate hnot.1 hw hzw
    have hnext : neighbours x = before ++ [y] ++ after := by simp [hnext]
    refine ih hone (fun {z w} hz => ?_) hnext fun z hz => ?_
    · exact hlate fun hmem => hz (mem_appendNew.mpr (Or.inl hmem))
    · rw [mem_appendNew]
      exact (List.mem_append.mp hz).imp (hbefore z) List.mem_singleton.mp

theorem BreadthFirst.foremost_round (hclosed : Closed neighbours q) (hpop : q.pop? = some (x, rest))
    (h : Foremost sooner neighbours root q.discovered) :
    Foremost sooner neighbours root (rest.pushAll (neighbours x)).discovered := by
  rw [discovered_pushAll, discovered_pop? hpop]
  refine horder.foremost_foldl_appendNew h (h.leads (mem_discovered_of_pop? hpop))
    (fun {z w} hz hw hzw => ?_) (List.nil_append _).symm nofun
  by_cases hmem : w ∈ q.discovered
  · -- what was handed out before `x` has no neighbour left, so `w` is `x` or waits behind it
    have hsplit : q.discovered = q.taken.reverse ++ x :: rest.waiting := by
      rw [discovered, (pop?_eq_some hpop).1]
    rw [hsplit, List.mem_append, List.mem_reverse, List.mem_cons] at hmem
    rcases hmem with hmem | rfl | hmem
    · exact absurd (hclosed.closed hmem hzw) hz
    · exact Or.inl rfl
    · have hpairwise := List.pairwise_append.mp (hsplit ▸ h.pairwise)
      exact Or.inr ((List.pairwise_cons.mp hpairwise.2.1).1 w hmem)
  · exact Or.inr (h.missing (mem_discovered_of_pop? hpop) hw hmem)

/-- With enough fuel `explore` lists what the root leads to in every order that is breadth first. -/
theorem BreadthFirst.pairwise_explore (hroot : root ∈ space)
    (hclosed : ∀ x ∈ space, ∀ y ∈ neighbours x, y ∈ space) (hcard : space.card ≤ fuel) :
    (explore neighbours fuel (ofList [root])).Pairwise sooner := by
  obtain ⟨q, heq, -, -, h⟩ := exists_explored_ofList space (List.forall_mem_singleton.mpr hroot)
    hclosed hcard (P := fun q => Foremost sooner neighbours root q.discovered)
    horder.foremost_round horder.foremost_root
  exact heq ▸ h.pairwise

end Order

end RegularSets.Queue
