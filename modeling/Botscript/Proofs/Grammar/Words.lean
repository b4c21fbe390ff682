import Mathlib.Computability.MyhillNerode
import Mathlib.Order.CompletePartialOrder
import Botscript.Token.Basic

/-!
# Languages of tokens

The pieces that grammars are put together from, and what can be told of a language from the first
token of its words: all words of `L` begin with one of some kinds (`Starts`), or none does
(`Avoids`).
-/

namespace Botscript.Grammar

open Computability Token

/-- One token of one of the kinds. -/
def oneOf (ks : List Kind) : Language Token := {w | ∃ t : Token, w = [t] ∧ t.kind ∈ ks}

/-- One token of a kind. -/
abbrev tok (k : Kind) : Language Token := oneOf [k]

/-- A word of a language, or nothing. -/
def opt (L : Language Token) : Language Token := 1 + L

/-- Words of a language between commas, one at least. -/
def sepBy (L : Language Token) : Language Token := L * (tok .comma * L)∗

variable {L M K : Language Token} {ks ls : List Kind} {t : Token} {v w : List Token}

theorem mem_oneOf : w ∈ oneOf ks ↔ ∃ t : Token, w = [t] ∧ t.kind ∈ ks := Iff.rfl

theorem mem_oneOf_mul : w ∈ oneOf ks * K ↔ ∃ t v, w = t :: v ∧ t.kind ∈ ks ∧ v ∈ K := by
  rw [Language.mem_mul]
  constructor
  · rintro ⟨_, ⟨t, rfl, ht⟩, v, hv, rfl⟩
    exact ⟨t, v, rfl, ht, hv⟩
  · rintro ⟨t, v, rfl, ht, hv⟩
    exact ⟨[t], ⟨t, rfl, ht⟩, v, hv, rfl⟩

theorem cons_mem_oneOf_mul : t :: v ∈ oneOf ks * K ↔ t.kind ∈ ks ∧ v ∈ K := by
  rw [mem_oneOf_mul]
  constructor
  · rintro ⟨_, _, h, ht, hv⟩
    cases h
    exact ⟨ht, hv⟩
  · exact fun h => ⟨t, v, rfl, h⟩

theorem concat_mem_mul_oneOf {u : List Token} : u ++ [t] ∈ L * oneOf ks ↔ u ∈ L ∧ t.kind ∈ ks := by
  constructor
  · rintro ⟨v, hv, _, ⟨s, rfl, hs⟩, he⟩
    obtain ⟨rfl, hlast⟩ := List.append_inj' he rfl
    exact ⟨hv, List.head_eq_of_cons_eq hlast ▸ hs⟩
  · rintro ⟨hu, ht⟩
    exact Language.append_mem_mul hu ⟨t, rfl, ht⟩

theorem mem_tok {k : Kind} : w ∈ tok k ↔ ∃ t : Token, w = [t] ∧ t.kind = k := by
  simp only [mem_oneOf, List.mem_singleton]

theorem mem_tok_mul {k : Kind} : w ∈ tok k * K ↔ ∃ t v, w = t :: v ∧ t.kind = k ∧ v ∈ K := by
  simp only [mem_oneOf_mul, List.mem_singleton]

theorem oneOf_append (ks ls : List Kind) : oneOf (ks ++ ls) = oneOf ks + oneOf ls := by
  ext w
  simp only [Language.mem_add, mem_oneOf, List.mem_append, and_or_left, exists_or]

@[gcongr] theorem opt_mono (h : L ≤ M) : opt L ≤ opt M := add_le_add_right h 1

@[gcongr] theorem sepBy_mono (h : L ≤ M) : sepBy L ≤ sepBy M := by unfold sepBy; gcongr

theorem star_mul (L K : Language Token) : L∗ * K = L * (L∗ * K) + K := by
  conv_lhs => rw [← Language.one_add_self_mul_kstar_eq_kstar]
  rw [add_mul, one_mul, mul_assoc, add_comm]

/-! ## First tokens -/

/-- The words of a language are not empty, and begin with some kinds only. -/
def Starts (L : Language Token) (ks : List Kind) : Prop :=
  ∀ w ∈ L, ∃ t v, w = t :: v ∧ t.kind ∈ ks

/-- No word of a language begins with one of some kinds. -/
def Avoids (L : Language Token) (ks : List Kind) : Prop :=
  ∀ t v, t :: v ∈ L → t.kind ∉ ks

namespace Starts

theorem oneOf (h : ks ⊆ ls) : Starts (oneOf ks) ls := by
  rintro _ ⟨t, rfl, ht⟩
  exact ⟨t, [], rfl, h ht⟩

theorem tok {k : Kind} (h : k ∈ ls) : Starts (tok k) ls := oneOf (by simpa using h)

theorem mul (h : Starts L ks) (K : Language Token) : Starts (L * K) ks := by
  rintro _ ⟨u, hu, v, -, rfl⟩
  obtain ⟨t, u, rfl, ht⟩ := h u hu
  exact ⟨t, u ++ v, rfl, ht⟩

theorem add (h : Starts L ks) (h' : Starts M ks) : Starts (L + M) ks := by
  rintro w (hw | hw)
  · exact h w hw
  · exact h' w hw

theorem zero : Starts 0 ks := fun w hw => absurd hw (Language.notMem_zero w)

theorem mono (h : Starts L ks) (hs : ks ⊆ ls) : Starts L ls := fun w hw => by
  obtain ⟨t, v, rfl, ht⟩ := h w hw
  exact ⟨t, v, rfl, hs ht⟩

theorem of_le (h : Starts L ks) (hle : M ≤ L) : Starts M ks := fun w hw => h w (hle hw)

theorem opt_mul (h : Starts L ks) (h' : Starts K ks) : Starts (opt L * K) ks := by
  rw [opt, add_mul, one_mul]
  exact h'.add (h.mul K)

theorem sepBy (h : Starts L ks) : Starts (sepBy L) ks := h.mul _

theorem avoids (h : Starts L ks) (hd : ∀ k ∈ ks, k ∉ ls) : Avoids L ls := fun t v hv => by
  obtain ⟨t', v', he, ht⟩ := h _ hv
  cases he
  exact hd _ ht

end Starts

namespace Avoids

theorem zero : Avoids 0 ks := fun _ _ hv => absurd hv (Language.notMem_zero _)

theorem one : Avoids 1 ks := fun t v hv => by simp [Language.mem_one] at hv

theorem add (h : Avoids L ks) (h' : Avoids M ks) : Avoids (L + M) ks := by
  rintro t v (hv | hv)
  · exact h t v hv
  · exact h' t v hv

theorem mono (h : Avoids L ks) (hs : ls ⊆ ks) : Avoids L ls :=
  fun t v hv ht => h t v hv (hs ht)

theorem oneOf_mul (h : ∀ k ∈ ks, k ∉ ls) (K : Language Token) : Avoids (oneOf ks * K) ls :=
  (Starts.mul (.oneOf (List.Subset.refl ks)) K).avoids h

theorem tok_mul {k : Kind} (h : k ∉ ks) (K : Language Token) : Avoids (tok k * K) ks :=
  oneOf_mul (by simpa using h) K

theorem opt_mul (h : Avoids (L * K) ks) (h' : Avoids K ks) : Avoids (opt L * K) ks := by
  rw [opt, add_mul, one_mul]
  exact h'.add h

theorem star_mul (h : Avoids (L * (L∗ * K)) ks) (h' : Avoids K ks) : Avoids (L∗ * K) ks := by
  rw [Grammar.star_mul]
  exact h.add h'

end Avoids

/-! ## Languages with words -/

/-- Some word of a language begins with a token of a kind. -/
def Begins (L : Language Token) (k : Kind) : Prop := ∃ t v, t.kind = k ∧ t :: v ∈ L

theorem Begins.mono {k : Kind} (h : Begins L k) (hle : L ≤ M) : Begins M k := by
  obtain ⟨t, v, ht, hv⟩ := h
  exact ⟨t, v, ht, hle hv⟩

/-- A language has a word. -/
def Possible (L : Language Token) : Prop := ∃ w, w ∈ L

@[simp] theorem possible_oneOf : Possible (oneOf ks) ↔ ks ≠ [] := by
  constructor
  · rintro ⟨_, t, -, ht⟩
    exact List.ne_nil_of_mem ht
  · intro h
    obtain ⟨k, hk⟩ := List.exists_mem_of_ne_nil ks h
    exact ⟨_, ⟨k, "", .origin, 0⟩, rfl, hk⟩

@[simp] theorem possible_one : Possible 1 := ⟨[], Language.nil_mem_one⟩

@[simp] theorem possible_mul : Possible (L * M) ↔ Possible L ∧ Possible M := by
  constructor
  · rintro ⟨_, u, hu, v, hv, rfl⟩
    exact ⟨⟨u, hu⟩, v, hv⟩
  · rintro ⟨⟨u, hu⟩, v, hv⟩
    exact ⟨_, Language.append_mem_mul hu hv⟩

@[simp] theorem possible_sup : Possible (L ⊔ M) ↔ Possible L ∨ Possible M := exists_or

@[simp] theorem possible_opt : Possible (opt L) := ⟨[], .inl Language.nil_mem_one⟩

@[simp] theorem possible_star : Possible L∗ := ⟨[], Language.nil_mem_kstar L⟩

@[simp] theorem possible_sepBy : Possible (sepBy L) ↔ Possible L := by simp [sepBy]

theorem Begins.possible {k : Kind} (h : Begins L k) : Possible L := by
  obtain ⟨t, v, -, hv⟩ := h
  exact ⟨t :: v, hv⟩

theorem Begins.mul {k : Kind} (h : Begins L k) (hM : Possible M) : Begins (L * M) k := by
  obtain ⟨t, v, ht, hv⟩ := h
  obtain ⟨w, hw⟩ := hM
  exact ⟨t, v ++ w, ht, Language.append_mem_mul hv hw⟩

theorem begins_oneOf {k : Kind} (hk : k ∈ ks) : Begins (oneOf ks) k :=
  ⟨⟨k, "", .origin, 0⟩, [], rfl, _, rfl, hk⟩

/-! ## What may follow a first token -/

theorem leftQuotient_add (L M : Language Token) (u : List Token) :
    (L + M).leftQuotient u = L.leftQuotient u + M.leftQuotient u := rfl

theorem leftQuotient_oneOf_mul (h : t.kind ∈ ks) (K : Language Token) :
    (oneOf ks * K).leftQuotient [t] = K := by
  ext v
  rw [Language.mem_leftQuotient, List.singleton_append, cons_mem_oneOf_mul, and_iff_right h]

theorem leftQuotient_oneOf_mul_ite (ks : List Kind) (K : Language Token) (t : Token) :
    (oneOf ks * K).leftQuotient [t] = if t.kind ∈ ks then K else 0 := by
  split_ifs with h
  · exact leftQuotient_oneOf_mul h K
  · ext v
    exact iff_of_false (fun hv => h (cons_mem_oneOf_mul.1 hv).1) (Language.notMem_zero v)

theorem leftQuotient_oneOf (h : t.kind ∈ ks) : (oneOf ks).leftQuotient [t] = 1 := by
  simpa using leftQuotient_oneOf_mul h 1

theorem Starts.leftQuotient_mul (h : Starts L ks) (K : Language Token) (t : Token) :
    (L * K).leftQuotient [t] = L.leftQuotient [t] * K := by
  ext v
  rw [Language.mem_leftQuotient, Language.mem_mul, Language.mem_mul]
  constructor
  · rintro ⟨a, ha, b, hb, he⟩
    obtain ⟨u, a, rfl, -⟩ := h a ha
    obtain ⟨rfl, rfl⟩ := List.cons.inj he
    exact ⟨a, ha, b, hb, rfl⟩
  · rintro ⟨a, ha, b, hb, rfl⟩
    exact ⟨t :: a, ha, b, hb, rfl⟩

theorem Avoids.leftQuotient (h : Avoids L ks) (ht : t.kind ∈ ks) : L.leftQuotient [t] = 0 := by
  ext v
  exact iff_of_false (fun hv => h t v hv ht) (Language.notMem_zero v)

end Botscript.Grammar
