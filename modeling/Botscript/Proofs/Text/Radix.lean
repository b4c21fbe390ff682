import Botscript.Text.Bytes
import Botscript.Text.Numeral
import Mathlib.Data.List.Forall2
import Mathlib.Data.Nat.Digits.Defs

/-!
# Numbers in a radix

`Number base text n` says which number a text is the digits of, and `Signed signs base text n`
lets a plus sign stand in front of them. The reader finds that number if it is within the limit, and
takes no other text (`read_eq_ok`). Digits are single bytes (`Number.byteLength`), and how many
there are bounds the number (`Number.lt_pow`).
-/

namespace Botscript.Numeral

/-- A character is the digit of a value, a letter in upper or lower case. -/
def IsDigit (base : Nat) (c : Char) (v : Nat) : Prop := v < base ∧ c.toLower = Nat.digitChar v

/-- A text is the digits of a number, the most significant first. -/
def Number (base : Nat) (text : List Char) (n : Nat) : Prop :=
  ∃ values, List.Forall₂ (IsDigit base) text values ∧ n = Nat.ofDigits base values.reverse

/-- A text is a numeral of a number: its digits, in front of which there may be a plus sign. -/
def Signed (signs : Bool) (base : Nat) (text : List Char) (n : Nat) : Prop :=
  (text ≠ [] ∧ Number base text n) ∨
    signs = true ∧ ∃ digits, text = '+' :: digits ∧ digits ≠ [] ∧ Number base digits n

variable {base limit n m v value : Nat} {c : Char} {text : List Char}

/-! ## Digits -/

theorem digitValue?_ascii : ∀ code < 128, ∀ v < 16,
    digitValue? 16 (Char.ofNat code) = some v ↔
      (Char.ofNat code).toLower = Nat.digitChar v := by
  decide +kernel

theorem digitChar_ascii : ∀ v < 16, (Nat.digitChar v).toNat < 128 := by decide

theorem toLower_of_not_ascii (h : 128 ≤ c.toNat) : c.toLower = c :=
  dif_neg fun ⟨_, hz⟩ => by
    have hz : c.toNat ≤ 90 := hz
    omega

theorem digitValue?_of_not_ascii (h : 128 ≤ c.toNat) : digitValue? base c = none := by
  have hdigit : ¬ c.isDigit = true := fun hc => by
    have hle : c.toNat ≤ 57 := of_decide_eq_true (Bool.and_eq_true_iff.1 hc).2
    omega
  have hlower : ¬ c.isLower = true := fun hc => by
    have hle : c.toNat ≤ 122 := of_decide_eq_true (Bool.and_eq_true_iff.1 hc).2
    omega
  have hupper : ¬ c.isUpper = true := fun hc => by
    have hle : c.toNat ≤ 90 := (of_decide_eq_true hc).2
    omega
  simp [digitValue?, hdigit, hlower, hupper]

/-- A digit of a small radix is a hexadecimal digit that is small enough. -/
theorem digitValue?_eq_filter (hbase : base ≤ 16) :
    digitValue? base c = (digitValue? 16 c).filter (· < base) := by
  simp only [digitValue?]
  generalize (if c.isDigit then some (c.toNat - '0'.toNat)
    else if c.isLower then some (c.toNat - 'a'.toNat + 10)
    else if c.isUpper then some (c.toNat - 'A'.toNat + 10) else none) = value?
  cases value? with
  | none => rfl
  | some v =>
    by_cases hv : v < base
    · simp [Option.filter, hv, Nat.lt_of_lt_of_le hv hbase]
    · by_cases hv' : v < 16 <;> simp [Option.filter, hv, hv']

theorem digitValue?_eq_some (hbase : base ≤ 16) :
    digitValue? base c = some v ↔ IsDigit base c v := by
  rw [digitValue?_eq_filter hbase, Option.filter_eq_some_iff, decide_eq_true_iff, IsDigit,
    and_comm]
  refine and_congr_right fun hv => ?_
  rcases Nat.lt_or_ge c.toNat 128 with h | h
  · have := digitValue?_ascii c.toNat h v (by omega)
    rwa [Char.ofNat_toNat] at this
  · rw [digitValue?_of_not_ascii h, toLower_of_not_ascii h]
    refine iff_of_false nofun fun hc => ?_
    have := digitChar_ascii v (by omega)
    rw [← hc] at this
    omega

theorem digitValue?_eq_none (hbase : base ≤ 16) :
    digitValue? base c = none ↔ ∀ v, ¬ IsDigit base c v := by
  simp only [Option.eq_none_iff_forall_ne_some, ne_eq, digitValue?_eq_some hbase]

/-- A digit is a single byte. -/
theorem IsDigit.utf8Size (h : IsDigit base c v) (hbase : base ≤ 16) : c.utf8Size = 1 := by
  obtain ⟨hv, hc⟩ := h
  have hascii : c.toNat < 128 := by
    by_contra hge
    have := digitChar_ascii v (by omega)
    rw [← hc, toLower_of_not_ascii (Nat.le_of_not_lt hge)] at this
    exact hge this
  rw [Char.utf8Size_eq_one_iff, UInt32.le_iff_toNat_le]
  exact Nat.le_of_lt_succ hascii

theorem not_isDigit_plus (hbase : base ≤ 16) : ¬ IsDigit base '+' v :=
  (digitValue?_eq_none hbase).1 rfl v

/-! ## Numbers -/

@[simp] theorem number_nil : Number base [] n ↔ n = 0 :=
  ⟨fun ⟨values, hall, hn⟩ => by cases hall; exact hn, fun hn => ⟨[], .nil, hn⟩⟩

theorem number_cons : Number base (c :: text) n ↔
    ∃ v m, IsDigit base c v ∧ Number base text m ∧ n = v * base ^ text.length + m := by
  have hof (v : Nat) (values : List Nat) (hlen : text.length = values.length) :
      Nat.ofDigits base (v :: values).reverse =
        v * base ^ text.length + Nat.ofDigits base values.reverse := by
    rw [List.reverse_cons, Nat.ofDigits_append, Nat.ofDigits_singleton, List.length_reverse, hlen,
      Nat.mul_comm, Nat.add_comm]
  constructor
  · rintro ⟨_, hc | ⟨hc, hall⟩, rfl⟩
    exact ⟨_, _, hc, ⟨_, hall, rfl⟩, hof _ _ hall.length_eq⟩
  · rintro ⟨v, _, hc, ⟨values, hall, rfl⟩, rfl⟩
    exact ⟨v :: values, .cons hc hall, (hof v values hall.length_eq).symm⟩

/-- Any digits are a number. -/
theorem exists_number : (∃ n, Number base text n) ↔ ∀ c ∈ text, ∃ v, IsDigit base c v := by
  induction text with
  | nil => simp
  | cons c text ih =>
    simp only [List.forall_mem_cons, ← ih, number_cons]
    constructor
    · rintro ⟨_, v, m, hc, hm, rfl⟩
      exact ⟨⟨v, hc⟩, m, hm⟩
    · rintro ⟨⟨v, hc⟩, m, hm⟩
      exact ⟨_, v, m, hc, hm, rfl⟩

theorem Number.lt_pow (h : Number base text n) : n < base ^ text.length := by
  induction text generalizing n with
  | nil => simp [number_nil.1 h]
  | cons c text ih =>
    obtain ⟨v, m, hc, hm, rfl⟩ := number_cons.1 h
    calc v * base ^ text.length + m < v * base ^ text.length + base ^ text.length :=
          Nat.add_lt_add_left (ih hm) _
      _ = (v + 1) * base ^ text.length := (Nat.succ_mul ..).symm
      _ ≤ base * base ^ text.length := Nat.mul_le_mul_right _ hc.1
      _ = base ^ (c :: text).length := (Nat.pow_succ').symm

theorem Number.byteLength (h : Number base text n) (hbase : base ≤ 16) :
    byteLength text = text.length := by
  induction text generalizing n with
  | nil => rfl
  | cons c text ih =>
    obtain ⟨v, m, hc, hm, -⟩ := number_cons.1 h
    rw [byteLength_cons, hc.utf8Size hbase, ih hm, List.length_cons, Nat.add_comm]

theorem Number.concat (h : Number base text m) (hc : IsDigit base c v) :
    Number base (text ++ [c]) (m * base + v) := by
  obtain ⟨values, hall, rfl⟩ := h
  refine ⟨values ++ [v], List.rel_append hall (.cons hc .nil), ?_⟩
  rw [List.reverse_append, List.reverse_singleton, List.singleton_append, Nat.ofDigits_cons,
    Nat.add_comm, Nat.mul_comm]

theorem isDigit_digitChar (hbase : base ≤ 16) (hv : v < base) :
    IsDigit base (Nat.digitChar v) v := by
  have hlower : ∀ v < 16, (Nat.digitChar v).toLower = Nat.digitChar v := by decide
  exact ⟨hv, hlower v (Nat.lt_of_lt_of_le hv hbase)⟩

/-- The digits that are written of a number are digits of it. -/
theorem number_toDigits (hone : 1 < base) (hbase : base ≤ 16) (n : Nat) :
    Number base (Nat.toDigits base n) n := by
  induction n using Nat.strong_induction_on with
  | _ n ih =>
    obtain hlt | hge := Nat.lt_or_ge n base
    · rw [Nat.toDigits_of_lt_base hlt]
      simpa using (number_nil.2 rfl).concat (isDigit_digitChar hbase hlt)
    · have hdigit := isDigit_digitChar hbase (Nat.mod_lt n (Nat.zero_lt_of_lt hone))
      have hpos : 0 < n := Nat.lt_of_lt_of_le (Nat.zero_lt_of_lt hone) hge
      have := (ih (n / base) (Nat.div_lt_self hpos hone)).concat hdigit
      rwa [Nat.div_add_mod', ← Nat.toDigits_of_base_le hone hge] at this

/-- The reader counts on from the digits before, as long as the limit allows. -/
theorem readDigits_eq_ok (hbase : base ≤ 16) (hvalue : value ≤ limit) :
    readDigits base limit value text = .ok n ↔
      n ≤ limit ∧ ∃ m, Number base text m ∧ n = value * base ^ text.length + m := by
  induction text generalizing value with
  | nil =>
    simp only [readDigits, Except.ok.injEq, number_nil, exists_eq_left, List.length_nil,
      Nat.pow_zero]
    omega
  | cons c text ih =>
    cases hd : digitValue? base c with
    | none =>
      simp only [readDigits, hd]
      refine iff_of_false nofun ?_
      rintro ⟨-, m, hm, -⟩
      obtain ⟨v, -, hc, -⟩ := number_cons.1 hm
      exact (digitValue?_eq_none hbase).1 hd v hc
    | some v =>
      have hc := (digitValue?_eq_some hbase).1 hd
      have hnumber : (∃ m, Number base (c :: text) m ∧ n = value * base ^ (c :: text).length + m) ↔
          ∃ m, Number base text m ∧ n = (value * base + v) * base ^ text.length + m := by
        have hpow (m : Nat) : value * base ^ (c :: text).length + (v * base ^ text.length + m) =
            (value * base + v) * base ^ text.length + m := by
          rw [List.length_cons, Nat.pow_succ', Nat.add_mul, Nat.mul_assoc, Nat.add_assoc]
        constructor
        · rintro ⟨_, hall, rfl⟩
          obtain ⟨v', m, hc', hm, rfl⟩ := number_cons.1 hall
          obtain rfl : v = v' :=
            Option.some.inj (hd.symm.trans ((digitValue?_eq_some hbase).2 hc'))
          exact ⟨m, hm, hpow m⟩
        · rintro ⟨m, hm, rfl⟩
          exact ⟨_, number_cons.2 ⟨v, m, hc, hm, rfl⟩, (hpow m).symm⟩
      simp only [readDigits, hd, hnumber]
      split
      next hle => exact ih hle
      next hgt =>
        refine iff_of_false nofun ?_
        rintro ⟨hle, m, -, rfl⟩
        have := Nat.le_mul_of_pos_right (value * base + v)
          (Nat.pow_pos (n := text.length) (Nat.zero_lt_of_lt hc.1))
        omega

/-- The reader of numerals takes the digits of a number, with or without a plus sign. -/
theorem read_eq_ok (hbase : base ≤ 16) :
    read base limit text = .ok n ↔ n ≤ limit ∧ Signed true base text n := by
  have hdigits (digits : List Char) :
      readDigits base limit 0 digits = .ok n ↔ n ≤ limit ∧ Number base digits n := by
    simp [readDigits_eq_ok hbase (Nat.zero_le limit)]
  unfold read
  split
  next => simp [Signed]
  next =>
    refine iff_of_false nofun ?_
    rintro ⟨-, ⟨-, hn⟩ | ⟨-, digits, he, hne, -⟩⟩
    · obtain ⟨v, -, hv, -⟩ := number_cons.1 hn
      exact not_isDigit_plus hbase hv
    · exact hne (List.cons.inj he).2.symm
  next digits hne =>
    rw [hdigits]
    refine and_congr_right fun _ => ⟨fun hn => .inr ⟨rfl, digits, rfl, by simpa using hne, hn⟩, ?_⟩
    rintro (⟨-, hn⟩ | ⟨-, _, he, -, hn⟩)
    · obtain ⟨v, -, hv, -⟩ := number_cons.1 hn
      exact absurd hv (not_isDigit_plus hbase)
    · exact (List.cons.inj he).2 ▸ hn
  next hnil _ hsign =>
    rw [hdigits]
    refine and_congr_right fun _ => ⟨fun hn => .inl ⟨hnil, hn⟩, ?_⟩
    rintro (⟨-, hn⟩ | ⟨-, digits, he, -⟩)
    · exact hn
    · exact absurd he (hsign digits)

end Botscript.Numeral
