import Botscript.Token.Kind

/-!
# Sets of kinds

A `KindSet` is kept as the bits of a number, so that equal sets are equal values. `single` and
`union` build sets, and `toList` lists one in the order of the kinds.
-/

namespace Botscript.Token

/-- A set of kinds: the kind of index `i` belongs to it if bit `i` is set. -/
structure KindSet where
  bits : Nat
deriving DecidableEq, Repr

namespace KindSet

/-- The set without kinds. -/
def empty : KindSet := ⟨0⟩

/-- The set of one kind. -/
def single (kind : Kind) : KindSet := ⟨1 <<< kind.ctorIdx⟩

/-- The kinds of either set. -/
def union (s t : KindSet) : KindSet := ⟨s.bits ||| t.bits⟩

/-- Whether a kind belongs to a set. -/
def contains (s : KindSet) (kind : Kind) : Bool := s.bits.testBit kind.ctorIdx

instance : Membership Kind KindSet := ⟨fun s kind => s.contains kind = true⟩

instance (kind : Kind) (s : KindSet) : Decidable (kind ∈ s) :=
  inferInstanceAs (Decidable (s.contains kind = true))

/-- The kinds of a set, in order. -/
def toList (s : KindSet) : List Kind := Kind.all.filter (· ∈ s)

theorem mem_iff_testBit {kind : Kind} {s : KindSet} :
    kind ∈ s ↔ s.bits.testBit kind.ctorIdx = true := Iff.rfl

@[simp] theorem not_mem_empty (kind : Kind) : kind ∉ empty := by
  simp [mem_iff_testBit, empty]

theorem getElem?_ctorIdx (k : Kind) : Kind.all[k.ctorIdx]? = some k := by cases k <;> rfl

theorem ctorIdx_inj {k l : Kind} (h : k.ctorIdx = l.ctorIdx) : k = l := by
  have hk := getElem?_ctorIdx k
  rwa [h, getElem?_ctorIdx l, Option.some.injEq, eq_comm] at hk

@[simp] theorem mem_single {k l : Kind} : k ∈ single l ↔ k = l := by
  rw [mem_iff_testBit, single, Nat.one_shiftLeft, Nat.testBit_two_pow, decide_eq_true_iff]
  exact ⟨fun h => ctorIdx_inj h.symm, fun h => h ▸ rfl⟩

@[simp] theorem mem_union {kind : Kind} {s t : KindSet} :
    kind ∈ s.union t ↔ kind ∈ s ∨ kind ∈ t := by
  simp [mem_iff_testBit, union]

@[simp] theorem mem_toList {kind : Kind} {s : KindSet} : kind ∈ s.toList ↔ kind ∈ s := by
  simp [toList, Kind.mem_all]

theorem union_assoc (s t u : KindSet) : (s.union t).union u = s.union (t.union u) := by
  simp [union, Nat.or_assoc]

theorem union_comm (s t : KindSet) : s.union t = t.union s := by
  simp [union, Nat.or_comm]

@[simp] theorem union_self (s : KindSet) : s.union s = s := by
  simp [union]

@[simp] theorem empty_union (s : KindSet) : empty.union s = s := by
  simp [union, empty]

@[simp] theorem union_empty (s : KindSet) : s.union empty = s := by
  simp [union, empty]

end KindSet

end Botscript.Token
