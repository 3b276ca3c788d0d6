import RegularSets.Symbol

/-!
# Names of states

States are named in order: `A`, `B`, …, `Z`, `A'`, …, `Z'`, `A''` and so on. The canonical names are
legal names of non-terminals; the alternate names end in `_`, which no non-terminal does, so the two
schemes never meet. A `NameSupply` hands out the names of a scheme one by one.
-/

namespace RegularSets

/-- A scheme for the names of states. -/
inductive Naming
  | canonical
  | alternate
  deriving Repr, DecidableEq

namespace Naming

/-- The `n`-th capital, counting round and round from `A` at 0. -/
def letter (n : Nat) : Char :=
  Char.ofNat ('A'.toNat + n % 26)

/-- The mark at the end of every name of a scheme. -/
def suffix : Naming → List Char
  | canonical => []
  | alternate => [alternateMark]

/-- The name of the `n`-th state, as characters. -/
def chars (scheme : Naming) (n : Nat) : List Char :=
  letter n :: (List.replicate (n / 26) roundMark ++ scheme.suffix)

/-- The name of the `n`-th state: a letter, an apostrophe for each full round, then the mark of the
scheme. -/
def name (scheme : Naming) (n : Nat) : String :=
  String.ofList (scheme.chars n)

/-- The first `n` names. -/
def names (scheme : Naming) (n : Nat) : List String :=
  (List.range n).map scheme.name

@[simp]
theorem length_names (scheme : Naming) (n : Nat) : (scheme.names n).length = n := by
  simp [names]

theorem getElem?_names {scheme : Naming} {n i : Nat} (h : i < n) :
    (scheme.names n)[i]? = some (scheme.name i) := by
  simp [names, h]

theorem getD_names {scheme : Naming} {n i : Nat} (h : i < n) {s : String} :
    (scheme.names n).getD i s = scheme.name i := by
  rw [List.getD_eq_getElem?_getD, getElem?_names h, Option.getD_some]

end Naming

/-- Lengthen a name with a mark until it is no longer taken. With more fuel than taken names the
result is free. -/
def freshName (taken : String → Bool) (mark : Char) : Nat → String → String
  | 0, name => name
  | fuel + 1, name =>
    if taken name then freshName taken mark fuel (name.push mark) else name

/-- The names of a scheme from some index on. -/
structure NameSupply where
  scheme : Naming
  /-- How many names have been handed out. -/
  produced : Nat := 0
  deriving Repr, DecidableEq

namespace NameSupply

/-- The next name, and the supply after it. -/
def next (supply : NameSupply) : String × NameSupply :=
  (supply.scheme.name supply.produced, { supply with produced := supply.produced + 1 })

/-- The next `k` names, and the supply after them. -/
def take (supply : NameSupply) (k : Nat) : List String × NameSupply :=
  ((List.range' supply.produced k).map supply.scheme.name,
    { supply with produced := supply.produced + k })

end NameSupply

end RegularSets
