import Mathlib.Data.List.Nodup
import RegularSets.Automaton.Complete
import RegularSets.Automaton.Edit
import RegularSets.Automaton.WellFormed

/-!
# Rows of transitions

A row is read through `Row.targets`, and this file says what every change of a row does to it. `Fits`
is the part of well-formedness that is about one row: no stored list is empty, none repeats a target,
and all targets are states. Every change keeps it, so well-formedness of a changed automaton is a
matter of its states and roles (`Automaton.WellFormed.of_fits`).
-/

namespace RegularSets

namespace Row

variable {τ : Type} {row : Row τ} {states : List τ} {c d : Char} {t u : τ} {ts : List τ}

/-- The row suits an automaton with these states. -/
def Fits (row : Row τ) (states : List τ) : Prop :=
  ∀ (c : Char) (ts : List τ), row[c]? = some ts → ts ≠ [] ∧ ts.Nodup ∧ ∀ t ∈ ts, t ∈ states

/-! ## Reading -/

theorem targets_of_getElem? (h : row[c]? = some ts) : targets row c = ts := by
  simp [targets, h]

theorem getElem?_of_mem_targets (h : t ∈ targets row c) : row[c]? = some (targets row c) := by
  rw [targets] at h ⊢
  cases hc : row[c]? with
  | none => simp [hc] at h
  | some ts => rfl

@[simp]
theorem targets_empty : targets (∅ : Row τ) c = [] := by
  simp [targets]

@[simp]
theorem mem_pairs : (c, t) ∈ pairs row ↔ t ∈ targets row c := by
  simp only [pairs, List.mem_flatMap, List.mem_map, Prod.mk.injEq, Prod.exists,
    Std.ExtTreeMap.mem_toList_iff_getElem?_eq_some]
  constructor
  · rintro ⟨d, ts, hts, u, hu, rfl, rfl⟩
    rwa [targets_of_getElem? hts]
  · exact fun h => ⟨c, _, getElem?_of_mem_targets h, t, h, rfl, rfl⟩

/-- The targets on a symbol stand among the transitions in their order. -/
theorem filterMap_pairs :
    ((pairs row).filterMap fun (d, t) => if d = c then some t else none) = targets row c := by
  have hentry : ∀ e : Char × List τ,
      ((e.2.map fun t => (e.1, t)).filterMap fun (d, t) => if d = c then some t else none) =
        if e.1 = c then e.2 else [] := by
    intro e
    rw [List.filterMap_map]
    split
    · next he => simp [he]
    · next he => simp [he]
  have hkeys : (row.toList.map (·.1)).Nodup := by
    rw [Std.ExtTreeMap.map_fst_toList_eq_keys]
    exact Std.ExtTreeMap.nodup_keys
  rw [pairs, List.filterMap_flatMap]
  simp only [hentry]
  rw [targets]
  cases hc : row[c]? with
  | none =>
    refine flatMap_ite_of_not_mem _ (fun hmem => ?_) _
    rw [Std.ExtTreeMap.map_fst_toList_eq_keys, Std.ExtTreeMap.mem_keys,
      Std.ExtTreeMap.mem_iff_isSome_getElem?, hc] at hmem
    cases hmem
  | some ts =>
    have hmem : (c, ts) ∈ row.toList := Std.ExtTreeMap.mem_toList_iff_getElem?_eq_some.mpr hc
    exact flatMap_ite_of_mem _ hkeys hmem _

theorem fits_empty : Fits (∅ : Row τ) states := by
  intro c ts h
  simp at h

namespace Fits

variable (h : Fits row states)

include h

theorem nodup_targets : (targets row c).Nodup := by
  rw [targets]
  cases hc : row[c]? with
  | none => exact List.nodup_nil
  | some ts => exact (h c ts hc).2.1

theorem mem_of_mem_targets (ht : t ∈ targets row c) : t ∈ states :=
  (h c _ (getElem?_of_mem_targets ht)).2.2 t ht

/-- A symbol is in the row exactly if it has a target. -/
theorem mem_iff : c ∈ row ↔ targets row c ≠ [] := by
  rw [Std.ExtTreeMap.mem_iff_isSome_getElem?, targets]
  cases hc : row[c]? with
  | none => simp
  | some ts => simpa using (h c ts hc).1

theorem getElem?_eq (c : Char) :
    row[c]? = if targets row c = [] then none else some (targets row c) := by
  rw [targets]
  cases hc : row[c]? with
  | none => rfl
  | some ts => exact (if_neg (h c ts hc).1).symm

/-- A row in which no stored list is empty is known by its targets. -/
theorem ext {row' : Row τ} {states' : List τ} (h' : Fits row' states')
    (heq : ∀ c, targets row c = targets row' c) : row = row' := by
  refine Std.ExtTreeMap.ext_getElem? fun c => ?_
  rw [h.getElem?_eq, h'.getElem?_eq, heq]

/-- No transition is listed twice. -/
theorem nodup_pairs : (pairs row).Nodup := by
  rw [pairs, List.nodup_flatMap]
  constructor
  · rintro ⟨c, ts⟩ hmem
    have hts := h c ts (Std.ExtTreeMap.mem_toList_iff_getElem?_eq_some.mp hmem)
    exact hts.2.1.map fun t u heq => (Prod.mk.inj heq).2
  · -- symbols differ from entry to entry
    refine Std.ExtTreeMap.distinct_keys_toList.imp ?_
    rintro ⟨c, ts⟩ ⟨d, us⟩ hne
    refine List.disjoint_left.mpr fun e hc hd => hne ?_
    obtain ⟨t, -, rfl⟩ := List.mem_map.mp hc
    obtain ⟨u, -, heq⟩ := List.mem_map.mp hd
    rw [(Prod.mk.inj heq).1]
    exact Std.ReflCmp.compare_self

theorem mono {more : List τ} (hmore : ∀ t ∈ states, t ∈ more) : Fits row more := fun c ts hc =>
  have ⟨hne, hnodup, hmem⟩ := h c ts hc
  ⟨hne, hnodup, fun t ht => hmore t (hmem t ht)⟩

end Fits

/-! ## Adding targets -/

theorem targets_insert : targets (row.insert c ts) d = if c = d then ts else targets row d := by
  rw [targets, Std.ExtTreeMap.getElem?_insert]
  split
  · next hcd => simp [Std.LawfulEqCmp.eq_of_compare hcd]
  · next hcd => rw [if_neg (by rintro rfl; simp at hcd), targets]

theorem Fits.insert (h : Fits row states) (hne : ts ≠ []) (hnodup : ts.Nodup)
    (hmem : ∀ t ∈ ts, t ∈ states) : Fits (row.insert c ts) states := by
  intro d us hd
  rw [Std.ExtTreeMap.getElem?_insert] at hd
  split at hd
  · cases hd
    exact ⟨hne, hnodup, hmem⟩
  · exact h d us hd

section Add

variable [DecidableEq τ]

theorem mem_targets_add : u ∈ targets (add row c t) d ↔ u ∈ targets row d ∨ c = d ∧ u = t := by
  rw [add, targets_insert]
  split
  · next hcd => simp [hcd]
  · next hcd => simp [hcd]

theorem Fits.add (h : Fits row states) (ht : t ∈ states) : Fits (add row c t) states := by
  refine h.insert appendNew_ne_nil (nodup_appendNew h.nodup_targets) fun u hu => ?_
  rcases mem_appendNew.mp hu with hu | rfl
  · exact h.mem_of_mem_targets hu
  · exact ht

/-- The targets after adding a list of transitions one by one. -/
theorem mem_targets_foldl_add (entries : List (Char × τ)) :
    u ∈ targets (entries.foldl (fun row (c, t) => Row.add row c t) row) d ↔
      u ∈ targets row d ∨ (d, u) ∈ entries := by
  induction entries generalizing row with
  | nil => simp
  | cons entry entries ih =>
    rw [List.foldl_cons, ih, mem_targets_add, List.mem_cons, Prod.ext_iff, or_assoc]
    simp only [eq_comm]

theorem Fits.foldl_add {entries : List (Char × τ)} (h : Fits row states)
    (hentries : ∀ c t, (c, t) ∈ entries → t ∈ states) :
    Fits (entries.foldl (fun row (c, t) => Row.add row c t) row) states := by
  induction entries generalizing row with
  | nil => exact h
  | cons entry entries ih =>
    exact ih (h.add (hentries _ _ List.mem_cons_self)) fun c t hmem =>
      hentries c t (List.mem_cons_of_mem _ hmem)

end Add

/-! ## Changing targets -/

theorem targets_rename (f : τ → State) :
    targets (rename f row) c = (targets row c).map f := by
  rw [targets, rename, Std.ExtTreeMap.getElem?_map, targets]
  cases row[c]? <;> rfl

theorem Fits.rename (h : Fits row states) {f : τ → State}
    (hf : ∀ s ∈ states, ∀ t ∈ states, f s = f t → s = t) :
    Fits (rename f row) (states.map f) := by
  intro c us hus
  rw [Row.rename, Std.ExtTreeMap.getElem?_map] at hus
  obtain ⟨ts, hts, rfl⟩ := Option.map_eq_some_iff.mp hus
  obtain ⟨hne, hnodup, hmem⟩ := h c ts hts
  refine ⟨by simpa using hne, List.Nodup.map_on ?_ hnodup, fun t ht => ?_⟩
  · exact fun s hs t ht => hf s (hmem s hs) t (hmem t ht)
  · obtain ⟨s, hs, rfl⟩ := List.mem_map.mp ht
    exact List.mem_map.mpr ⟨s, hmem s hs, rfl⟩

theorem getElem?_mapTargets (f : List τ → List τ) :
    (mapTargets f row)[c]? =
      row[c]?.bind fun ts => if (f ts).isEmpty then none else some (f ts) := by
  rw [mapTargets, Std.ExtTreeMap.getElem?_filterMap']

theorem targets_mapTargets {f : List τ → List τ} (hf : f [] = []) :
    targets (mapTargets f row) c = f (targets row c) := by
  rw [targets, getElem?_mapTargets, targets]
  cases row[c]? with
  | none => simp [hf]
  | some ts =>
    rw [Option.bind_some]
    split
    · next he => simpa using (List.isEmpty_iff.mp he).symm
    · rfl

theorem Fits.mapTargets_filter (h : Fits row states) (stays : τ → Bool) :
    Fits (mapTargets (List.filter stays) row) (states.filter stays) := by
  intro c us hus
  rw [getElem?_mapTargets] at hus
  obtain ⟨ts, hts, heq⟩ := Option.bind_eq_some_iff.mp hus
  split at heq
  · cases heq
  · next hne =>
    cases heq
    obtain ⟨-, hnodup, hmem⟩ := h c ts hts
    refine ⟨fun hnil => hne (List.isEmpty_iff.mpr hnil), hnodup.filter _, fun t ht => ?_⟩
    rw [List.mem_filter] at ht ⊢
    exact ⟨hmem t ht.1, ht.2⟩

section Redirect

variable {row : Row} {states : List State} {u : State}

/-- Redirection puts `new` in the place of `old`. -/
theorem mem_targets_redirect {old new : State} :
    u ∈ targets (redirect old new row) c ↔
      ∃ t ∈ targets row c, u = if t = old then new else t := by
  rw [targets, redirect, Std.ExtTreeMap.getElem?_map, targets]
  cases row[c]? with
  | none => simp
  | some ts =>
    simp only [Option.map_some, Option.getD_some]
    split
    · simp only [List.mem_eraseDups, List.mem_map, eq_comm]
    · next hold =>
      constructor
      · exact fun hu => ⟨u, hu, by rw [if_neg (by rintro rfl; exact hold hu)]⟩
      · intro h
        obtain ⟨t, ht, rfl⟩ := h
        rwa [if_neg (by rintro rfl; exact hold ht)]

theorem length_targets_redirect_le {old new : State} :
    (targets (redirect old new row) c).length ≤ (targets row c).length := by
  rw [targets, redirect, Std.ExtTreeMap.getElem?_map, targets]
  cases row[c]? with
  | none => simp
  | some ts =>
    simp only [Option.map_some, Option.getD_some]
    split
    · exact Nat.le_trans (eraseDups_sublist _).length_le (by simp)
    · exact Nat.le_refl _

theorem Fits.redirect (h : Fits row states) {old new : State} (hnew : new ∈ states) :
    Fits (redirect old new row) states := by
  intro c us hus
  have hmem : ∀ u ∈ us, u ∈ states := by
    intro u hu
    rw [← targets_of_getElem? hus, mem_targets_redirect] at hu
    obtain ⟨t, ht, rfl⟩ := hu
    split
    · exact hnew
    · exact h.mem_of_mem_targets ht
  rw [Row.redirect, Std.ExtTreeMap.getElem?_map] at hus
  obtain ⟨ts, hts, heq⟩ := Option.map_eq_some_iff.mp hus
  obtain ⟨hne, hnodup, -⟩ := h c ts hts
  split at heq
  · subst heq
    obtain ⟨t, ht⟩ := List.exists_mem_of_ne_nil ts hne
    exact ⟨List.ne_nil_of_mem (List.mem_eraseDups.mpr (List.mem_map_of_mem ht)),
      nodup_eraseDups _, hmem⟩
  · subst heq
    exact ⟨hne, hnodup, hmem⟩

end Redirect

end Row

end RegularSets
