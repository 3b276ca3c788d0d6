import Mathlib.Data.List.Nodup
import Mathlib.Logic.ExistsUnique
import RegularSets.Naming

/-!
# Distinct names

A scheme never hands out a name twice (`Naming.name_injective`), and no name of a scheme is the name of
the sink. The canonical names are legal names of non-terminals and the alternate ones are not, so the two
schemes share no name. A name is read back as a letter and a number of rounds, which are the remainder and
the quotient of its index by 26; hence a capital with apostrophes is the canonical name of one index.

A name that is lengthened until it is free is free in the end (`not_taken_freshName`): every mark makes it
longer than the names that were taken before, so the fuel runs out only after all taken names.
-/

namespace RegularSets

namespace Naming

variable {scheme : Naming} {m n : Nat}

theorem toNat_letter (n : Nat) : (letter n).toNat = 'A'.toNat + n % 26 := by
  have hlt : n % 26 < 26 := Nat.mod_lt _ (by decide)
  rw [letter]
  generalize n % 26 = k at hlt
  revert k
  decide

theorem name_injective (h : scheme.name m = scheme.name n) : m = n := by
  rw [name, name, String.ofList_inj, chars, chars, List.cons.injEq] at h
  obtain ⟨hletter, hrest⟩ := h
  have hmod : m % 26 = n % 26 := by
    have := congrArg Char.toNat hletter
    rw [toNat_letter, toNat_letter] at this
    exact Nat.add_left_cancel this
  have hdiv : m / 26 = n / 26 := by
    simpa using congrArg List.length hrest
  rw [← Nat.div_add_mod m 26, ← Nat.div_add_mod n 26, hdiv, hmod]

theorem nodup_names (scheme : Naming) (n : Nat) : (scheme.names n).Nodup :=
  List.Nodup.map (fun _ _ => name_injective) List.nodup_range

theorem name_ne_sinkName : scheme.name n ≠ sinkName := by
  intro h
  have hchars : scheme.chars n = ['φ'] := String.ofList_injective h
  have hletter : (letter n).toNat = 'φ'.toNat :=
    congrArg Char.toNat (List.cons.inj hchars).1
  rw [toNat_letter] at hletter
  have : n % 26 < 26 := Nat.mod_lt _ (by decide)
  have hA : 'A'.toNat = 65 := rfl
  have hphi : 'φ'.toNat = 966 := rfl
  omega

theorem isUpper_letter (n : Nat) : (letter n).isUpper = true := by
  have hlt : n % 26 < 26 := Nat.mod_lt _ (by decide)
  have hletter : (letter n).toNat = 65 + n % 26 := toNat_letter n
  have hlo : 'A'.toNat ≤ (letter n).toNat := by
    rw [hletter]
    exact Nat.le_add_right 65 _
  have hhi : (letter n).toNat ≤ 'Z'.toNat := by
    rw [hletter]
    exact Nat.add_le_add_left (Nat.le_of_lt_succ hlt) 65
  exact decide_eq_true ⟨UInt32.le_iff_toNat_le.mpr hlo, UInt32.le_iff_toNat_le.mpr hhi⟩

theorem isNonTerminal_name (n : Nat) : isNonTerminal (canonical.name n).toList = true := by
  rw [name, String.toList_ofList, chars, isNonTerminal, isUpper_letter, Bool.true_and,
    List.all_eq_true]
  intro c hc
  rw [suffix, List.append_nil] at hc
  rw [List.eq_of_mem_replicate hc]
  decide

/-- The mark of the alternate scheme has no place in a non-terminal. -/
theorem not_isNonTerminal_alternate (n : Nat) :
    isNonTerminal (alternate.name n).toList = false := by
  have hmark : (alternateMark.isDigit || decide (alternateMark = roundMark)) = false := by decide
  rw [name, String.toList_ofList, chars, isNonTerminal, suffix, List.all_append, List.all_cons, hmark,
    Bool.false_and, Bool.and_false, Bool.and_false]

theorem alternate_ne_canonical (m n : Nat) : alternate.name m ≠ canonical.name n := by
  intro h
  have hcanonical := isNonTerminal_name n
  rw [← h, not_isNonTerminal_alternate] at hcanonical
  cases hcanonical

/-! ## Reading a name back -/

theorem canonical_name_eq_iff {capital : Char} {rounds : Nat} :
    canonical.name n = String.ofList (capital :: List.replicate rounds roundMark) ↔
      letter n = capital ∧ n / 26 = rounds := by
  rw [name, String.ofList_inj, chars, suffix, List.append_nil, List.cons.injEq, List.replicate_inj]
  simp

/-- Every capital is the letter of some index in every round. -/
theorem exists_letter_eq {c : Char} (hc : c.isUpper = true) (rounds : Nat) :
    ∃ n, letter n = c ∧ n / 26 = rounds := by
  have hbounds : 'A'.toNat ≤ c.toNat ∧ c.toNat ≤ 'Z'.toNat := by
    obtain ⟨hlo, hhi⟩ := of_decide_eq_true hc
    exact ⟨UInt32.le_iff_toNat_le.mp hlo, UInt32.le_iff_toNat_le.mp hhi⟩
  have hA : 'A'.toNat = 65 := rfl
  have hZ : 'Z'.toNat = 90 := rfl
  rw [hA, hZ] at hbounds
  refine ⟨26 * rounds + (c.toNat - 65), ?_, by omega⟩
  rw [letter, hA, show 65 + (26 * rounds + (c.toNat - 65)) % 26 = c.toNat by omega, Char.ofNat_toNat]

/-- A capital followed by apostrophes. -/
def IsLettered (s : String) : Prop :=
  ∃ (c : Char) (rounds : Nat), c.isUpper = true ∧ s = String.ofList (c :: List.replicate rounds roundMark)

theorem isLettered_canonical (n : Nat) : IsLettered (canonical.name n) :=
  ⟨letter n, n / 26, isUpper_letter n, canonical_name_eq_iff.mpr ⟨rfl, rfl⟩⟩

/-- The index is made of the two numbers that the name shows. -/
theorem existsUnique_name_eq_iff (s : String) : (∃! n, canonical.name n = s) ↔ IsLettered s := by
  constructor
  · rintro ⟨n, rfl, -⟩
    exact isLettered_canonical n
  · rintro ⟨c, rounds, hc, rfl⟩
    obtain ⟨n, hn⟩ := exists_letter_eq hc rounds
    have hname := canonical_name_eq_iff.mpr hn
    exact ⟨n, hname, fun m hm => name_injective (hm.trans hname.symm)⟩

/-- **Names of states.** Within a scheme two indexes have one name only if they are one index, and the two
schemes share no name. The canonical names are non-terminals and the alternate names are none; no name is
that of the sink. The strings that are canonical names, each of a single index, are those made of a capital
and apostrophes. -/
theorem name_spec (m n : Nat) :
    (∀ scheme : Naming, scheme.name m = scheme.name n ↔ m = n) ∧
      alternate.name m ≠ canonical.name n ∧
      isNonTerminal (canonical.name n).toList = true ∧
      isNonTerminal (alternate.name n).toList = false ∧
      (∀ scheme : Naming, scheme.name n ≠ sinkName) ∧
      ∀ s : String, (∃! k, canonical.name k = s) ↔ IsLettered s :=
  ⟨fun scheme => ⟨name_injective, congrArg scheme.name⟩, alternate_ne_canonical m n,
    isNonTerminal_name n, not_isNonTerminal_alternate n, fun _ => name_ne_sinkName,
    existsUnique_name_eq_iff⟩

end Naming

section FreshName

variable {taken : String → Bool} {names : List String}

/-- With as much fuel as there are taken names that are no shorter, a lengthened name is free. -/
theorem not_taken_freshName_of_filter (mark : Char) (htaken : ∀ s, taken s = true → s ∈ names)
    (fuel : Nat) (name : String)
    (hfuel : (names.filter fun s => name.length ≤ s.length).length ≤ fuel) :
    taken (freshName taken mark fuel name) = false := by
  induction fuel generalizing name with
  | zero =>
    rw [freshName, ← Bool.not_eq_true]
    intro hname
    have hnil := List.eq_nil_of_length_eq_zero (Nat.le_zero.mp hfuel)
    simpa using List.filter_eq_nil_iff.mp hnil name (htaken name hname)
  | succ fuel ih =>
    rw [freshName]
    split
    · next hname =>
      -- the name itself is no longer among those that are no shorter
      refine ih _ (Nat.le_of_lt_succ (Nat.lt_of_lt_of_le ?_ hfuel))
      have hsub : (names.filter fun s => (name.push mark).length ≤ s.length) =
          (names.filter fun s => name.length ≤ s.length).filter
            fun s => (name.push mark).length ≤ s.length := by
        rw [List.filter_filter]
        refine List.filter_congr fun s _ => ?_
        rw [← Bool.decide_and]
        simp only [String.length_push, decide_eq_decide]
        omega
      rw [hsub, List.length_filter_lt_length_iff_exists]
      exact ⟨name, by simpa using htaken name hname, by simp⟩
    · next hname => simpa using hname

theorem not_taken_freshName (mark : Char) (htaken : ∀ s, taken s = true → s ∈ names) {fuel : Nat}
    (hfuel : names.length ≤ fuel) (name : String) :
    taken (freshName taken mark fuel name) = false :=
  not_taken_freshName_of_filter mark htaken fuel name
    (Nat.le_trans (List.length_filter_le _ _) hfuel)

end FreshName

end RegularSets
