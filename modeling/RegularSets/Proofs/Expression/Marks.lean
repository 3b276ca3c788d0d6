import RegularSets.Expression.Walk
import Mathlib.Logic.Relation

/-!
# What a walk can still read

Every visit admits marked words: those of its subtree, if the walk is on its way down, followed by those
that may come after it (`Visit.Admits`). The operators that a walk comes back to say what comes after
(`Continues`). A visit leads exactly to the visits that its admitted words begin with: it leads to the
end if it admits the empty word, and to the leaf at `i` if it admits a word that begins with `i`, where
the rest of the word is what may come after the leaf (`admits_iff_finds`).

One direction is an invariant of single steps: a visit admits whatever the visits after it admit
(`Admits.of_next`). The other is an induction on the marked word of a subtree, for all words that may
come after it (`finds_of_marks`), and then on the operators above (`finds_of_continues`).
-/

namespace RegularSets

open RegularSets.Tree

variable {t d l r : Tree} {returns : List Tree} {p : Place} {u v w : List Nat} {i : Nat}

/-! ## Marked words and words -/

namespace Tree

/-- The terminal at each position is the one that `letter` has there. -/
def Labelled (letter : Nat → Char) : Tree → Prop
  | atom (.terminal c) _ i => letter i = c
  | atom .emptyWord _ _ => True
  | modify _ _ _ d => d.Labelled letter
  | join _ _ _ l r => l.Labelled letter ∧ r.Labelled letter

variable {letter : Nat → Char} {word : List Char} {e f : Expression}

theorem matches_of_marks (hletter : t.Labelled letter) (h : Marks t u) :
    t.expression.Matches (u.map letter) := by
  induction h with
  | terminal c n i =>
    have hc : letter i = c := hletter
    rw [List.map_singleton, hc]
    exact .terminal c
  | emptyWord => exact .emptyWord
  | concatenation _ _ _ _ ihl ihr =>
    rw [List.map_append]
    exact .concatenation (ihl hletter.1) (ihr hletter.2)
  | alternationLeft _ _ _ ih => exact .alternationLeft (ih hletter.1)
  | alternationRight _ _ _ ih => exact .alternationRight (ih hletter.2)
  | starNone => exact .starNone
  | starMore _ _ ihfirst ihothers =>
    rw [List.map_append]
    exact .starMore (ihfirst hletter) (ihothers hletter)
  | plusOne _ _ _ ih =>
    rw [← List.append_nil (List.map _ _)]
    exact .plus (ih hletter) .starNone
  | @plusMore d u v p n _ _ ihfirst ihothers =>
    have hothers := ihothers hletter
    rw [List.map_append]
    generalize v.map letter = rest at hothers ⊢
    cases hothers with
    | plus first others => exact .plus (ihfirst hletter) (.starMore first others)
  | optionalNone => exact .optionalNone
  | optionalOne _ _ _ ih => exact .optionalOne (ih hletter)

theorem expression_eq_atom {a : Atom} (h : t.expression = .atom a) : ∃ n i, t = atom a n i := by
  cases t with
  | atom b n i =>
    cases h
    exact ⟨n, i, rfl⟩
  | modify m p n d => cases h
  | join k p n l r => cases h

theorem expression_eq_modify {m : Modifier} (h : t.expression = .modify m e) :
    ∃ p n d, t = modify m p n d ∧ d.expression = e := by
  cases t with
  | atom b n i => cases h
  | modify m p n d =>
    cases h
    exact ⟨p, n, d, rfl, rfl⟩
  | join k p n l r => cases h

theorem expression_eq_join {k : Connective} (h : t.expression = .join k e f) :
    ∃ p n l r, t = join k p n l r ∧ l.expression = e ∧ r.expression = f := by
  cases t with
  | atom b n i => cases h
  | modify m p n d => cases h
  | join k p n l r =>
    cases h
    exact ⟨p, n, l, r, rfl, rfl, rfl⟩

/-- A word of one operand or more is a marked word of `plus`. -/
theorem marks_plus_of_star {p n : Nat} (hu : Marks d u) (hv : Marks (modify .star p n d) v) :
    Marks (modify .plus p n d) (u ++ v) := by
  generalize hstar : modify .star p n d = s at hv
  induction hv generalizing u with
  | starNone =>
    cases hstar
    rw [List.append_nil]
    exact .plusOne _ _ hu
  | starMore first _ _ ih =>
    cases hstar
    exact .plusMore hu (ih first rfl)
  | _ => cases hstar

theorem exists_marks_of_matches (hletter : t.Labelled letter) (h : t.expression.Matches word) :
    ∃ u, Marks t u ∧ u.map letter = word := by
  generalize he : t.expression = e at h
  induction h generalizing t with
  | terminal c =>
    obtain ⟨n, i, rfl⟩ := expression_eq_atom he
    exact ⟨[i], .terminal c n i, congrArg (fun x => [x]) hletter⟩
  | emptyWord =>
    obtain ⟨n, i, rfl⟩ := expression_eq_atom he
    exact ⟨[], .emptyWord n i, rfl⟩
  | concatenation _ _ ihl ihr =>
    obtain ⟨p, n, l, r, rfl, hl, hr⟩ := expression_eq_join he
    obtain ⟨u, hu, rfl⟩ := ihl hletter.1 hl
    obtain ⟨v, hv, rfl⟩ := ihr hletter.2 hr
    exact ⟨u ++ v, .concatenation p n hu hv, List.map_append⟩
  | alternationLeft _ ih =>
    obtain ⟨p, n, l, r, rfl, hl, -⟩ := expression_eq_join he
    obtain ⟨u, hu, heq⟩ := ih hletter.1 hl
    exact ⟨u, .alternationLeft p n hu, heq⟩
  | alternationRight _ ih =>
    obtain ⟨p, n, l, r, rfl, -, hr⟩ := expression_eq_join he
    obtain ⟨u, hu, heq⟩ := ih hletter.2 hr
    exact ⟨u, .alternationRight p n hu, heq⟩
  | starNone =>
    obtain ⟨p, n, d, rfl, -⟩ := expression_eq_modify he
    exact ⟨[], .starNone p n, rfl⟩
  | starMore _ _ ihfirst ihothers =>
    obtain ⟨p, n, d, rfl, hd⟩ := expression_eq_modify he
    obtain ⟨u, hu, rfl⟩ := ihfirst (t := d) hletter hd
    obtain ⟨v, hv, rfl⟩ := ihothers (t := modify .star p n d) hletter he
    exact ⟨u ++ v, .starMore hu hv, List.map_append⟩
  | plus _ _ ihfirst ihothers =>
    obtain ⟨p, n, d, rfl, hd⟩ := expression_eq_modify he
    obtain ⟨u, hu, rfl⟩ := ihfirst (t := d) hletter hd
    have hstar : (modify .star p n d).expression = .modify .star _ := congrArg _ hd
    obtain ⟨v, hv, rfl⟩ := ihothers (t := modify .star p n d) hletter hstar
    exact ⟨u ++ v, marks_plus_of_star hu hv, List.map_append⟩
  | optionalNone =>
    obtain ⟨p, n, d, rfl, -⟩ := expression_eq_modify he
    exact ⟨[], .optionalNone p n, rfl⟩
  | optionalOne _ ih =>
    obtain ⟨p, n, d, rfl, hd⟩ := expression_eq_modify he
    obtain ⟨u, hu, heq⟩ := ih (t := d) hletter hd
    exact ⟨u, .optionalOne p n hu, heq⟩

/-! ## Words that visits admit -/

/-- The marked words of an operator that may come after its left or only operand. -/
def After : Tree → List Nat → Prop
  | atom _ _ _, u => u = []
  | modify .star p n d, u => Marks (modify .star p n d) u
  | modify .plus p n d, u => u = [] ∨ Marks (modify .plus p n d) u
  | modify .optional _ _ _, u => u = []
  | join .concatenation _ _ _ r, u => Marks r u
  | join .alternation _ _ _ _, u => u = []

/-- One more operand in front of what may come after the last one. -/
theorem marks_plus_of_after {p n : Nat} (hu : Marks d u) (hv : (modify .plus p n d).After v) :
    Marks (modify .plus p n d) (u ++ v) := by
  rcases hv with rfl | hv
  · rw [List.append_nil]
    exact .plusOne p n hu
  · exact .plusMore hu hv

end Tree

/-- The marked words that come after the operators a walk comes back to, the nearest first. -/
def Continues : List Tree → List Nat → Prop
  | [], w => w = []
  | t :: returns, w => ∃ u v, t.After u ∧ Continues returns v ∧ u ++ v = w

theorem continues_cons (hu : t.After u) (hv : Continues returns v) :
    Continues (t :: returns) (u ++ v) :=
  ⟨u, v, hu, hv, rfl⟩

namespace Visit

/-- The visits that follow. -/
def next : Visit → List Visit
  | come p direction => p.visitsAfter direction
  | finish => []

/-- Going from visit to visit leads from `x` to `y`. -/
abbrev Leads (x y : Visit) : Prop :=
  Relation.ReflTransGen (fun x y => y ∈ x.next) x y

/-- The marked words that can be read from a visit to the end of the expression. -/
def Admits : Visit → List Nat → Prop
  | come p .down, w => ∃ u v, Marks p.subtree u ∧ Continues p.returns v ∧ u ++ v = w
  | come p .up, w => Continues (p.subtree :: p.returns) w
  | finish, w => w = []

/-- The visit leads to the beginning of a marked word that may come to an end. -/
def Finds (x : Visit) : List Nat → Prop
  | [] => x.Leads finish
  | i :: w => ∃ p, x.Leads (come p .down) ∧ p.consumed? .down = some i ∧ Continues p.returns w

variable {x y : Visit}

theorem mem_pair {z : Visit} (h : x ∈ [y, z]) : x = y ∨ x = z := by
  simpa using h

theorem admits_leave : p.leave.Admits w ↔ Continues p.returns w := by
  obtain ⟨subtree, returns⟩ := p
  cases returns <;> exact Iff.rfl

/-! ## What a visit leads to is admitted -/

/-- Entering the left operand on the way down. -/
theorem Admits.left_down (ht : ∀ {u v}, Marks d u → t.After v → Marks t (u ++ v))
    (h : (come ⟨d, t :: returns⟩ .down).Admits w) : (come ⟨t, returns⟩ .down).Admits w := by
  obtain ⟨u, _, hu, ⟨v, v', hv, hv', rfl⟩, rfl⟩ := h
  exact ⟨u ++ v, v', ht hu hv, hv', List.append_assoc u v v'⟩

/-- Entering the left operand once more on the way up. -/
theorem Admits.left_up (ht : ∀ {u v}, Marks d u → t.After v → t.After (u ++ v))
    (h : (come ⟨d, t :: returns⟩ .down).Admits w) : (come ⟨t, returns⟩ .up).Admits w := by
  obtain ⟨u, _, hu, ⟨v, v', hv, hv', rfl⟩, rfl⟩ := h
  exact ⟨u ++ v, v', ht hu hv, hv', List.append_assoc u v v'⟩

theorem Admits.skip_down (ht : Marks t []) (h : (Place.leave ⟨t, returns⟩).Admits w) :
    (come ⟨t, returns⟩ .down).Admits w :=
  ⟨[], w, ht, admits_leave.mp h, rfl⟩

theorem Admits.skip_up (ht : t.After []) (h : (Place.leave ⟨t, returns⟩).Admits w) :
    (come ⟨t, returns⟩ .up).Admits w :=
  ⟨[], w, ht, admits_leave.mp h, rfl⟩

theorem Admits.of_next_modify {m : Modifier} {n k : Nat} {direction : Direction}
    (hy : y ∈ (come ⟨modify m n k d, returns⟩ direction).next) (h : y.Admits w) :
    (come ⟨modify m n k d, returns⟩ direction).Admits w := by
  cases m <;> cases direction
  case star.down =>
    rcases mem_pair hy with rfl | rfl
    · exact h.left_down .starMore
    · exact h.skip_down (.starNone n k)
  case star.up =>
    rcases mem_pair hy with rfl | rfl
    · exact h.left_up .starMore
    · exact h.skip_up (.starNone n k)
  case plus.down =>
    cases List.mem_singleton.mp hy
    exact h.left_down marks_plus_of_after
  case plus.up =>
    rcases mem_pair hy with rfl | rfl
    · exact h.left_up fun hu hv => Or.inr (marks_plus_of_after hu hv)
    · exact h.skip_up (Or.inl rfl)
  case optional.down =>
    rcases mem_pair hy with rfl | rfl
    · refine h.left_down fun {u v} hu hv => ?_
      cases hv
      rw [List.append_nil]
      exact .optionalOne n k hu
    · exact h.skip_down (.optionalNone n k)
  case optional.up =>
    cases List.mem_singleton.mp hy
    exact h.skip_up rfl

theorem Admits.of_next_join {c : Connective} {n k : Nat} {direction : Direction}
    (hy : y ∈ (come ⟨join c n k l r, returns⟩ direction).next) (h : y.Admits w) :
    (come ⟨join c n k l r, returns⟩ direction).Admits w := by
  cases c <;> cases direction
  case concatenation.down =>
    cases List.mem_singleton.mp hy
    exact h.left_down (.concatenation n k)
  case concatenation.up =>
    cases List.mem_singleton.mp hy
    exact h
  case alternation.down =>
    rcases mem_pair hy with rfl | rfl
    · refine h.left_down fun {u v} hu hv => ?_
      cases hv
      rw [List.append_nil]
      exact .alternationLeft n k hu
    · obtain ⟨u, v, hu, hv, rfl⟩ := h
      exact ⟨u, v, .alternationRight n k hu, hv, rfl⟩
  case alternation.up =>
    cases List.mem_singleton.mp hy
    exact h.skip_up rfl

theorem Admits.of_next (hy : y ∈ x.next) (h : y.Admits w) : x.Admits w := by
  rcases x with ⟨⟨t, returns⟩, direction⟩ | _
  · cases t with
    | atom a n i =>
      cases a <;> cases direction
      · cases hy
      · cases List.mem_singleton.mp hy
        exact h.skip_up rfl
      · cases List.mem_singleton.mp hy
        exact h.skip_down (.emptyWord n i)
      · cases List.mem_singleton.mp hy
        exact h.skip_up rfl
    | modify m n k d => exact h.of_next_modify hy
    | join c n k l r => exact h.of_next_join hy
  · cases hy

theorem Admits.of_leads (h : x.Leads y) (hy : y.Admits w) : x.Admits w := by
  induction h using Relation.ReflTransGen.head_induction_on with
  | refl => exact hy
  | head hnext _ ih => exact ih.of_next hnext

/-! ## What is admitted is led to -/

theorem Finds.of_next (hy : y ∈ x.next) (h : y.Finds w) : x.Finds w := by
  cases w with
  | nil => exact .head hy h
  | cons i w =>
    obtain ⟨p, hp, hi, hw⟩ := h
    exact ⟨p, .head hy hp, hi, hw⟩

/-- On the way up an operator that starts again finds what it finds on the way down. -/
theorem Finds.up_of_down (hp : p.consumed? .down = none)
    (hnext : ∀ y ∈ p.visitsAfter .down, y ∈ p.visitsAfter .up) (h : (come p .down).Finds w) :
    (come p .up).Finds w := by
  have hleads : ∀ {y}, (come p .down).Leads y → y ≠ come p .down → (come p .up).Leads y := by
    intro y hy hne
    rcases hy.cases_head with rfl | ⟨z, hz, hzy⟩
    · exact absurd rfl hne
    · exact .head (hnext z hz) hzy
  cases w with
  | nil => exact hleads h (by simp)
  | cons i w =>
    obtain ⟨q, hq, hi, hw⟩ := h
    refine ⟨q, hleads hq fun heq => ?_, hi, hw⟩
    cases heq
    rw [hp] at hi
    cases hi

theorem finds_of_marks (h : Marks t u) (hv : Continues returns v)
    (hleave : (Place.leave ⟨t, returns⟩).Finds v) : (come ⟨t, returns⟩ .down).Finds (u ++ v) := by
  induction h generalizing returns v with
  | terminal c n i => exact ⟨_, .refl, rfl, hv⟩
  | emptyWord n i => exact hleave.of_next List.mem_cons_self
  | @concatenation l r u u' p n _ hr ihl ihr =>
    have hafter : (join .concatenation p n l r).After u' := hr
    have hup : (come ⟨join .concatenation p n l r, returns⟩ .up).Finds (u' ++ v) :=
      (ihr hv hleave).of_next List.mem_cons_self
    rw [List.append_assoc]
    exact (ihl (continues_cons hafter hv) hup).of_next List.mem_cons_self
  | @alternationLeft l r u p n _ ih =>
    have hafter : (join .alternation p n l r).After [] := rfl
    have hup : (come ⟨join .alternation p n l r, returns⟩ .up).Finds v :=
      hleave.of_next List.mem_cons_self
    exact (ih (continues_cons hafter hv) hup).of_next List.mem_cons_self
  | alternationRight p n _ ih =>
    exact (ih hv hleave).of_next (List.mem_cons_of_mem _ List.mem_cons_self)
  | starNone p n => exact hleave.of_next (List.mem_cons_of_mem _ List.mem_cons_self)
  | @starMore d u u' p n _ hothers ihfirst ihothers =>
    have hafter : (modify .star p n d).After u' := hothers
    have hup : (come ⟨modify .star p n d, returns⟩ .up).Finds (u' ++ v) :=
      (ihothers hv hleave).up_of_down rfl fun _ => id
    rw [List.append_assoc]
    exact (ihfirst (continues_cons hafter hv) hup).of_next List.mem_cons_self
  | @plusOne d u p n _ ih =>
    have hafter : (modify .plus p n d).After [] := Or.inl rfl
    have hup : (come ⟨modify .plus p n d, returns⟩ .up).Finds v :=
      hleave.of_next (List.mem_cons_of_mem _ List.mem_cons_self)
    exact (ih (continues_cons hafter hv) hup).of_next List.mem_cons_self
  | @plusMore d u u' p n _ hothers ihfirst ihothers =>
    have hafter : (modify .plus p n d).After u' := Or.inr hothers
    have hup : (come ⟨modify .plus p n d, returns⟩ .up).Finds (u' ++ v) :=
      (ihothers hv hleave).up_of_down rfl fun _ => List.mem_append_left _
    rw [List.append_assoc]
    exact (ihfirst (continues_cons hafter hv) hup).of_next List.mem_cons_self
  | optionalNone p n => exact hleave.of_next (List.mem_cons_of_mem _ List.mem_cons_self)
  | @optionalOne d u p n _ ih =>
    have hafter : (modify .optional p n d).After [] := rfl
    have hup : (come ⟨modify .optional p n d, returns⟩ .up).Finds v :=
      hleave.of_next List.mem_cons_self
    exact (ih (continues_cons hafter hv) hup).of_next List.mem_cons_self

theorem finds_of_continues (h : Continues returns v) : (Place.leave ⟨t, returns⟩).Finds v := by
  induction returns generalizing t v with
  | nil =>
    cases h
    exact .refl
  | cons s returns ih =>
    obtain ⟨u, v, hu, hv, rfl⟩ := h
    have hleave : (Place.leave ⟨s, returns⟩).Finds v := ih hv
    show (come ⟨s, returns⟩ .up).Finds (u ++ v)
    cases s with
    | atom a n i =>
      cases hu
      cases a <;> exact hleave.of_next List.mem_cons_self
    | modify m p n d =>
      cases m with
      | star => exact (finds_of_marks hu hv hleave).up_of_down rfl fun _ => id
      | plus =>
        rcases hu with rfl | hu
        · exact hleave.of_next (List.mem_cons_of_mem _ List.mem_cons_self)
        · exact (finds_of_marks hu hv hleave).up_of_down rfl fun _ => List.mem_append_left _
      | optional =>
        cases hu
        exact hleave.of_next List.mem_cons_self
    | join k p n l r =>
      cases k with
      | concatenation => exact (finds_of_marks hu hv hleave).of_next List.mem_cons_self
      | alternation =>
        cases hu
        exact hleave.of_next List.mem_cons_self

/-- A visit admits the marked words whose beginning it leads to. -/
theorem admits_iff_finds : x.Admits w ↔ x.Finds w := by
  constructor
  · intro h
    rcases x with ⟨p, _ | _⟩ | _
    · obtain ⟨u, v, hu, hv, rfl⟩ := h
      exact finds_of_marks hu hv (finds_of_continues hv)
    · exact finds_of_continues (t := p.subtree) h
    · cases h
      exact .refl
  · intro h
    cases w with
    | nil => exact .of_leads h rfl
    | cons i w =>
      obtain ⟨⟨t, returns⟩, hleads, hi, hw⟩ := h
      refine .of_leads hleads ⟨[i], w, ?_, hw, rfl⟩
      cases t with
      | atom a n j =>
        cases a with
        | terminal c =>
          cases hi
          exact .terminal c n i
        | emptyWord => cases hi
      | modify m p n d => cases hi
      | join k p n l r => cases hi

end Visit

end RegularSets
