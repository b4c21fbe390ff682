import Mathlib.Tactic.IntervalCases
import Botscript.Json.Skip
import Botscript.Json.Value

/-!
# Strings and numbers that are written are read

The readers take what is written off the front of a text and leave what follows it: strings with
every character of theirs (`run_string`), and numbers if they fit 64 bits (`run_number`,
`run_number_iff`). A number ends where no character goes on with it (`EndsNumber`). The readers of a
few characters come first, as what they leave.
-/

namespace Botscript.Json

namespace Reader

variable {α β : Type} {x : Reader α} {f : α → Reader β} {a : α} {c : Char}
  {text rest blanks : List Char} {paired : Bool}

/-! ## Steps -/

theorem run_bind_of_ok (h : x.run text = .ok (a, rest)) : (x >>= f).run text = (f a).run rest := by
  rw [StateT.run_bind, h]
  rfl

theorem run_bind_iff {b : β} : (x >>= f).run text = .ok (b, rest) ↔
    ∃ a mid, x.run text = .ok (a, mid) ∧ (f a).run mid = .ok (b, rest) := by
  constructor
  · intro h
    rw [StateT.run_bind] at h
    cases hx : x.run text with
    | error fault =>
      rw [hx] at h
      cases h
    | ok found =>
      rw [hx] at h
      exact ⟨found.1, found.2, rfl, h⟩
  · rintro ⟨a, mid, hx, hf⟩
    rw [run_bind_of_ok hx, hf]

theorem run_map_iff {g : α → β} {b : β} :
    (g <$> x).run text = .ok (b, rest) ↔ ∃ a, x.run text = .ok (a, rest) ∧ g a = b := by
  rw [StateT.run_map]
  cases x.run text with
  | error fault => simp
  | ok found =>
    obtain ⟨a, mid⟩ := found
    simp [and_comm]

theorem run_takeWhile {p : Char → Bool} {w : List Char} (hw : ∀ c ∈ w, p c)
    (hrest : ∀ c ∈ rest.head?, ¬ p c) : (takeWhile p).run (w ++ rest) = .ok (w, rest) := by
  have hstop : rest.takeWhile p = [] ∧ rest.dropWhile p = rest := by
    cases rest with
    | nil => exact ⟨rfl, rfl⟩
    | cons c rest =>
      have hc := hrest c rfl
      exact ⟨List.takeWhile_cons_of_neg hc, List.dropWhile_cons_of_neg hc⟩
  show Except.ok ((w ++ rest).takeWhile p, (w ++ rest).dropWhile p) = _
  rw [List.takeWhile_append_of_pos hw, List.dropWhile_append_of_pos hw, hstop.1, hstop.2,
    List.append_nil]

/-- Blanks in front of a character are passed over. -/
theorem run_ahead (hb : ∀ c ∈ blanks, isBlank c) (hc : ¬ isBlank c) :
    ahead.run (blanks ++ c :: text) = .ok (c, c :: text) :=
  run_bind_of_ok (run_takeWhile hb (by simpa using hc))

theorem run_ahead_cons (hc : ¬ isBlank c) : ahead.run (c :: text) = .ok (c, c :: text) :=
  run_ahead (fun _ h => absurd h List.not_mem_nil) hc

theorem run_mark (hb : ∀ c ∈ blanks, isBlank c) (hc : ¬ isBlank c) :
    (mark c).run (blanks ++ c :: text) = .ok ((), text) := by
  rw [mark, run_bind_of_ok (run_ahead hb hc), if_pos rfl]
  rfl

theorem run_mark_cons (hc : ¬ isBlank c) : (mark c).run (c :: text) = .ok ((), text) :=
  run_mark (fun _ h => absurd h List.not_mem_nil) hc

/-! ## Strings -/

/-- Control characters are written with two hexadecimal digits. -/
theorem run_escape_control {n : Nat} (hn : n < 32) (rest : List Char) :
    (escape paired).run ('u' :: '0' :: '0' :: (Numeral.hexByte (.ofNat n)).toList ++ rest) =
      .ok ([Char.ofNat n], rest) := by
  interval_cases n <;> rfl

/-- A character that is written is read. -/
theorem run_stringRest_char (bound : Nat) (c : Char) (rest : List Char) :
    (stringRestUpTo paired (bound + 1)).run ((stringChar c).toList ++ rest) =
      ((c :: ·) <$> stringRestUpTo paired bound).run rest := by
  unfold stringChar
  split
  iterate 7 rfl
  rename_i hquote hbackslash _ _ _ _ _
  split <;> rename_i hcontrol
  · have hchar : Char.ofNat c.toNat = c := Char.ofNat_toNat c
    have hescape : (escape paired).run _ = .ok ([Char.ofNat c.toNat], rest) :=
      run_escape_control hcontrol rest
    rw [hchar] at hescape
    rw [String.toList_append, stringRestUpTo]
    show ((next >>= _ : Reader _)).run ('\\' :: ('u' :: '0' :: '0' :: _ ++ rest)) = _
    refine (run_bind_of_ok rfl).trans ?_
    rw [if_neg (by decide), if_pos rfl]
    exact run_bind_of_ok hescape
  · have htext : c.toString.toList = [c] := String.toList_singleton c
    rw [htext, List.singleton_append, stringRestUpTo]
    refine (run_bind_of_ok rfl).trans ?_
    rw [if_neg hquote, if_neg hbackslash, if_neg hcontrol]
    rfl

theorem run_stringRest {cs : List Char} {bound : Nat} (h : cs.length < bound) (rest : List Char) :
    (stringRestUpTo paired bound).run (cs.flatMap (fun c => (stringChar c).toList) ++ '"' :: rest) =
      .ok (cs, rest) := by
  induction cs generalizing bound with
  | nil =>
    obtain ⟨bound, rfl⟩ := Nat.exists_eq_succ_of_ne_zero (Nat.ne_of_gt h)
    rfl
  | cons c cs ih =>
    obtain ⟨bound, rfl⟩ := Nat.exists_eq_succ_of_ne_zero (Nat.ne_of_gt (Nat.zero_lt_of_lt h))
    rw [List.flatMap_cons, List.append_assoc, run_stringRest_char, StateT.run_map,
      ih (Nat.lt_of_succ_lt_succ h)]
    rfl

theorem toList_quote (text : String) : (quote text).toList =
    '"' :: (text.toList.flatMap (fun c => (stringChar c).toList) ++ ['"']) := by
  simp [quote, List.flatMap_map]

theorem length_le_written (cs : List Char) :
    cs.length ≤ (cs.flatMap fun c => (stringChar c).toList).length := by
  have hone (c : Char) : 1 ≤ (stringChar c).toList.length := by
    unfold stringChar
    split
    iterate 7 exact Nat.le_add_left _ _
    split <;> simp [Char.toString]
  induction cs with
  | nil => exact le_rfl
  | cons c cs ih =>
    have hc := hone c
    rw [List.flatMap_cons, List.length_append, List.length_cons]
    omega

theorem run_ahead_quote (hb : ∀ c ∈ blanks, isBlank c) (text : String) (rest : List Char) :
    ahead.run (blanks ++ ((quote text).toList ++ rest)) =
      .ok ('"', (quote text).toList ++ rest) := by
  rw [toList_quote]
  exact run_ahead hb (by decide)

/-- What is written between quotes is read. -/
theorem run_string (text : String) (rest : List Char) :
    (string paired).run ((quote text).toList ++ rest) = .ok (text.toList, rest) := by
  rw [toList_quote, List.cons_append, List.append_assoc]
  refine (run_bind_of_ok rfl).trans ((run_bind_of_ok rfl).trans (run_stringRest ?_ rest))
  have hle := length_le_written text.toList
  rw [List.tail_cons, List.length_append]
  omega

/-! ## Numbers -/

/-- No number goes on with what follows it. -/
def EndsNumber (rest : List Char) : Prop := ∀ c ∈ rest.head?, ¬ c.isDigit ∧ c ∉ ['.', 'e', 'E']

theorem isDigit_toDigits (n : Nat) : ∀ c ∈ Nat.toDigits 10 n, c.isDigit :=
  fun _ hc => Nat.isDigit_of_mem_toDigits (by decide) (by decide) hc

/-- Only zero is written with a zero in front. -/
theorem eq_zero_of_head?_toDigits {n : Nat} (h : (Nat.toDigits 10 n).head? = some '0') :
    n = 0 := by
  induction n using Nat.strong_induction_on with
  | _ n ih =>
    obtain hlt | hge := Nat.lt_or_ge n 10
    · have hall : ∀ n < 10, (Nat.toDigits 10 n).head? = some '0' → n = 0 := by decide
      exact hall n hlt h
    · rw [Nat.toDigits_of_base_le (by decide) hge, List.head?_append,
        List.head?_eq_some_head Nat.toDigits_ne_nil, Option.some_or,
        ← List.head?_eq_some_head] at h
      have hzero := ih (n / 10) (by omega) h
      omega

theorem run_someDigits {digits : List Char} (hne : digits ≠ []) (hall : ∀ c ∈ digits, c.isDigit)
    (hrest : EndsNumber rest) : someDigits.run (digits ++ rest) = .ok (digits, rest) := by
  obtain ⟨c, digits, rfl⟩ := List.exists_cons_of_ne_nil hne
  obtain ⟨hc, hdigits⟩ := List.forall_mem_cons.1 hall
  refine (run_bind_of_ok rfl).trans ?_
  rw [if_pos hc]
  exact run_bind_of_ok (run_takeWhile hdigits fun d hd => (hrest d hd).1)

theorem run_wholeDigits (n : Nat) (hrest : EndsNumber rest) :
    wholeDigits.run (Nat.toDigits 10 n ++ rest) = .ok (Nat.toDigits 10 n, rest) := by
  have hdigits := run_someDigits Nat.toDigits_ne_nil (isDigit_toDigits n) hrest
  refine (run_bind_of_ok hdigits).trans ?_
  rw [if_neg]
  · rfl
  · rintro ⟨hzero, hlength⟩
    rw [eq_zero_of_head?_toDigits hzero] at hlength
    exact hlength rfl

theorem run_peek (text : List Char) : peek.run text = .ok (text.head?, text) := rfl

theorem run_fractionDigits (hrest : EndsNumber rest) :
    fractionDigits.run rest = .ok (none, rest) := by
  refine (run_bind_of_ok (run_peek rest)).trans ?_
  rw [if_neg]
  · rfl
  · exact fun hpoint => (hrest '.' hpoint).2 (by simp)

theorem run_exponent (hrest : EndsNumber rest) : exponent.run rest = .ok (none, rest) := by
  refine (run_bind_of_ok (run_peek rest)).trans ?_
  split
  · exact absurd (by simp) (hrest 'e' ‹_›).2
  · exact absurd (by simp) (hrest 'E' ‹_›).2
  · rfl

theorem head?_toDigits_ne_minus (n : Nat) (rest : List Char) :
    (Nat.toDigits 10 n ++ rest).head? ≠ some '-' := by
  obtain ⟨c, digits, hdigits⟩ := List.exists_cons_of_ne_nil (Nat.toDigits_ne_nil (b := 10) (n := n))
  have hc := isDigit_toDigits n c (by simp [hdigits])
  rw [hdigits, List.cons_append, List.head?_cons]
  rintro ⟨⟩
  cases hc

theorem le_ofDigitChars (digits : List Char) (value : Nat) :
    value ≤ Nat.ofDigitChars 10 digits value := by
  induction digits generalizing value with
  | nil => exact le_rfl
  | cons c digits ih =>
    rw [Nat.ofDigitChars_cons]
    exact le_trans (by omega) (ih _)

/-- Digits are all taken if the number that they make up fits. -/
theorem takeDigits_of_le {digits : List Char} {value : Nat}
    (h : Nat.ofDigitChars 10 digits value ≤ largestWord) (count : Nat) :
    takeDigits value count digits = (Nat.ofDigitChars 10 digits value, count + digits.length) := by
  induction digits generalizing value count with
  | nil => rfl
  | cons c digits ih =>
    rw [Nat.ofDigitChars_cons, Nat.mul_comm] at h ⊢
    rw [takeDigits, if_pos ((le_ofDigitChars digits _).trans h), ih h, List.length_cons,
      Nat.add_right_comm, Nat.add_assoc]

/-- Some digit is left if the number does not fit. -/
theorem takeDigits_of_lt {digits : List Char} {value : Nat} (hv : value ≤ largestWord)
    (h : largestWord < Nat.ofDigitChars 10 digits value) (count : Nat) :
    (takeDigits value count digits).2 < count + digits.length := by
  induction digits generalizing value count with
  | nil => exact absurd h (Nat.not_lt.2 hv)
  | cons c digits ih =>
    rw [Nat.ofDigitChars_cons, Nat.mul_comm] at h
    dsimp only [takeDigits]
    rw [List.length_cons]
    split
    · have hlater := ih ‹_› h (count + 1)
      omega
    · omega

/-- A number in decimal is read if it fits a word; if not, it has no value, or is a fault if it
exceeds the floats. -/
theorem run_number (n : Nat) (hrest : EndsNumber rest) :
    number.run (Nat.toDigits 10 n ++ rest) =
      if n ≤ largestWord then .ok (some n, rest)
      else
        let (digits, fitting) := takeDigits 0 0 (Nat.toDigits 10 n)
        if exceedsFloats digits ((Nat.toDigits 10 n).length - fitting : Nat) then .error .malformed
        else .ok (none, rest) := by
  refine (run_bind_of_ok (run_peek _)).trans ?_
  rw [if_neg (by simpa using head?_toDigits_ne_minus n rest)]
  refine (run_bind_of_ok (run_wholeDigits n hrest)).trans ?_
  refine (run_bind_of_ok (run_fractionDigits hrest)).trans ?_
  refine (run_bind_of_ok (run_exponent hrest)).trans ?_
  have hvalue : Nat.ofDigitChars 10 (Nat.toDigits 10 n) 0 = n := Nat.ofDigitChars_ten_toDigits
  obtain hlt | hle := Nat.lt_or_ge largestWord n
  · have htake := takeDigits_of_lt (Nat.zero_le _) (hlt.trans_eq hvalue.symm) 0
    rw [if_neg (Nat.not_le.2 hlt)]
    generalize takeDigits 0 0 (Nat.toDigits 10 n) = taken at htake ⊢
    obtain ⟨value, fitting⟩ := taken
    dsimp only at htake ⊢
    rw [if_neg fun h => htake.ne (h.2.1.trans (Nat.zero_add _).symm)]
    simp only [takeDigits, Option.getD_none, Int.natCast_zero, sub_zero, add_zero]
    split <;> rfl
  · have hminus : (! decide ((Nat.toDigits 10 n ++ rest).head? = some '-')) := by
      simpa using head?_toDigits_ne_minus n rest
    rw [takeDigits_of_le (hvalue.trans_le hle), hvalue, Nat.zero_add, if_pos hle]
    dsimp only
    rw [if_pos ⟨hminus, rfl, rfl, rfl⟩]
    rfl

/-- A number in decimal is read if and only if it fits a word. -/
theorem run_number_iff {n m : Nat} {left : List Char} (hrest : EndsNumber rest) :
    number.run (Nat.toDigits 10 n ++ rest) = .ok (some m, left) ↔
      n ≤ largestWord ∧ m = n ∧ left = rest := by
  rw [run_number n hrest]
  split <;> rename_i hle
  · simp [hle, eq_comm]
  · dsimp only
    split <;> simp [hle]

end Reader

end Botscript.Json
