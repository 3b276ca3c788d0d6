import RegularSets.Automaton.Builder
import RegularSets.Proofs.Queue

/-!
# Facts about values

What a builder is told is a list of facts, and all there is to know of its automaton can be read off them:
the values in the order of their first mention (`registered`), and the words along which the transitions
lead from one value to another (`Leads`). Which fact comes first, and how often it comes, decides on the
numbers of the values only.

Often the values are gone through one by one, and of each it is said what it does (`describe`). If they come
in the order of a search, that is the order in which they are registered (`registered_describe_explore`).
-/

namespace RegularSets.Builder

variable {α : Type} {x y z : α} {c : Char} {word : List Char} {facts facts' : List (Fact α)}

/-- The values that a fact mentions, in the order in which they are registered. -/
def Fact.mentioned : Fact α → List α
  | .state x => [x]
  | .final x => [x]
  | .transition x _ y => [x, y]

/-! ## Where the transitions lead -/

/-- The transitions among the facts lead along the word from one value to another. -/
inductive Leads (facts : List (Fact α)) : α → List Char → α → Prop
  | nil (x : α) : Leads facts x [] x
  | cons {x y z : α} {c : Char} {word : List Char} (step : .transition x c y ∈ facts)
      (rest : Leads facts y word z) : Leads facts x (c :: word) z

/-- The facts count, not their order. -/
theorem Leads.mono (h : Leads facts x word y) (hsub : ∀ fact ∈ facts, fact ∈ facts') :
    Leads facts' x word y := by
  induction h with
  | nil x => exact .nil x
  | cons step _ ih => exact .cons (hsub _ step) ih

theorem exists_leads_nil_iff : (∃ y, Leads facts x [] y ∧ .final y ∈ facts) ↔ .final x ∈ facts := by
  constructor
  · rintro ⟨y, hleads, hfinal⟩
    cases hleads
    exact hfinal
  · exact fun hfinal => ⟨x, .nil x, hfinal⟩

theorem exists_leads_cons_iff : (∃ z, Leads facts x (c :: word) z ∧ .final z ∈ facts) ↔
    ∃ y, .transition x c y ∈ facts ∧ ∃ z, Leads facts y word z ∧ .final z ∈ facts := by
  constructor
  · rintro ⟨z, hleads, hfinal⟩
    cases hleads with
    | cons step rest => exact ⟨_, step, z, rest, hfinal⟩
  · rintro ⟨y, step, z, rest, hfinal⟩
    exact ⟨z, .cons step rest, hfinal⟩

/-! ## Descriptions -/

/-- What is said of one value: whether it is final, and its transitions. -/
def describe (final : α → Bool) (out : α → List (Char × α)) (x : α) : List (Fact α) :=
  (if final x then [.final x] else []) ++ (out x).map fun e => .transition x e.1 e.2

section Describe

variable {final : α → Bool} {out : α → List (Char × α)} {xs : List α}

theorem final_mem_flatMap_describe :
    .final y ∈ xs.flatMap (describe final out) ↔ y ∈ xs ∧ final y = true := by
  have hone : ∀ x, .final y ∈ describe final out x ↔ x = y ∧ final y = true := by
    intro x
    rw [describe]
    split
    · next hx =>
      have hiff : (y = x) ↔ x = y ∧ final y = true := ⟨fun h => ⟨h.symm, h ▸ hx⟩, fun h => h.1.symm⟩
      simpa using hiff
    · next hx =>
      have hnot : x = y → final y = false := fun h => by simpa [h] using hx
      simpa using hnot
  simp only [List.mem_flatMap, hone]
  exact ⟨fun ⟨x, hx, heq, hfinal⟩ => ⟨heq ▸ hx, hfinal⟩, fun ⟨hy, hfinal⟩ => ⟨y, hy, rfl, hfinal⟩⟩

theorem transition_mem_flatMap_describe :
    .transition y c z ∈ xs.flatMap (describe final out) ↔ y ∈ xs ∧ (c, z) ∈ out y := by
  have hone : ∀ x, .transition y c z ∈ describe final out x ↔ x = y ∧ (c, z) ∈ out y := by
    intro x
    rw [describe, List.mem_append]
    have hno : .transition y c z ∉ (if final x then [Fact.final x] else []) := by
      split <;> simp
    rw [or_iff_right hno, List.mem_map]
    constructor
    · rintro ⟨e, he, heq⟩
      cases heq
      exact ⟨rfl, he⟩
    · rintro ⟨rfl, he⟩
      exact ⟨_, he, rfl⟩
  simp only [List.mem_flatMap, hone]
  exact ⟨fun ⟨x, hx, heq, he⟩ => ⟨heq ▸ hx, he⟩, fun ⟨hy, he⟩ => ⟨y, hy, rfl, he⟩⟩

end Describe

/-! ## Registered values -/

variable [DecidableEq α] {initial : α}

/-- The initial value and the values that are mentioned, each once, in the order of first mention. -/
def registered (initial : α) (facts : List (Fact α)) : List α :=
  (initial :: facts.flatMap Fact.mentioned).eraseDups

theorem registered_nil : registered initial ([] : List (Fact α)) = [initial] := by
  simp [registered, List.eraseDups_cons]

theorem registered_append : registered initial (facts ++ facts') =
    (facts'.flatMap Fact.mentioned).foldl appendNew (registered initial facts) := by
  rw [registered, List.flatMap_append, registered, foldl_appendNew_eraseDups, List.cons_append]

/-- The initial value is registered first. -/
theorem getElem?_registered_zero : (registered initial facts)[0]? = some initial := by
  rw [registered, List.eraseDups_cons]
  rfl

/-- Of a registered value only the targets can be new. -/
theorem foldl_appendNew_describe {final : α → Bool} {out : α → List (Char × α)} {values : List α}
    (hx : x ∈ values) : ((describe final out x).flatMap Fact.mentioned).foldl appendNew values =
      ((out x).map (·.2)).foldl appendNew values := by
  have hout : ∀ (es : List (Char × α)) {values : List α}, x ∈ values →
      ((es.map fun e => Fact.transition x e.1 e.2).flatMap Fact.mentioned).foldl appendNew values =
        (es.map (·.2)).foldl appendNew values := by
    intro es
    induction es with
    | nil => exact fun _ => rfl
    | cons e es ih =>
      intro values hx
      rw [List.map_cons, List.map_cons, List.flatMap_cons, List.foldl_append, List.foldl_cons,
        ← ih (mem_appendNew.mpr (Or.inl hx))]
      simp only [Fact.mentioned, List.foldl_cons, List.foldl_nil, appendNew_of_mem hx]
  rw [describe, List.flatMap_append, List.foldl_append, ← hout _ hx]
  split
  · simp only [List.flatMap_cons, List.flatMap_nil, Fact.mentioned, List.append_nil, List.foldl_cons,
      List.foldl_nil, appendNew_of_mem hx]
  · rfl

section Explore

open Queue

variable {final : α → Bool} {out : α → List (Char × α)} {space : Finset α} {fuel : Nat}

/-- Values that are described in the order in which they are found are registered in that order. -/
theorem registered_describe_explore (hinitial : initial ∈ space)
    (hclosed : ∀ x ∈ space, ∀ y ∈ (out x).map (·.2), y ∈ space) (hcard : space.card ≤ fuel) :
    registered initial ((explore (fun x => (out x).map (·.2)) fuel (ofList [initial])).flatMap
        (describe final out)) =
      explore (fun x => (out x).map (·.2)) fuel (ofList [initial]) := by
  have hround : ∀ {q rest : Queue α} {x : α}, Closed (fun x => (out x).map (·.2)) q →
      q.pop? = some (x, rest) →
      registered initial (q.taken.reverse.flatMap (describe final out)) = q.discovered →
      registered initial
          ((rest.pushAll ((out x).map (·.2))).taken.reverse.flatMap (describe final out)) =
        (rest.pushAll ((out x).map (·.2))).discovered := by
    intro q rest x _ hpop hq
    rw [taken_pushAll, (pop?_eq_some hpop).2, List.reverse_cons, List.flatMap_append, registered_append,
      hq, List.flatMap_singleton, foldl_appendNew_describe (mem_discovered_of_pop? hpop),
      discovered_pushAll, discovered_pop? hpop]
  obtain ⟨q, heq, hw, -, hvalues⟩ := exists_explored_ofList space
    (List.forall_mem_singleton.mpr hinitial) hclosed hcard hround registered_nil
  rw [discovered, hw, List.append_nil] at heq hvalues
  rw [heq, hvalues]

end Explore

end RegularSets.Builder
