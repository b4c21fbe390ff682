import Mathlib.Data.Bool.AllAny
import Botscript.Json.Value
import Botscript.Proofs.Json.Scalars

/-!
# Values that are written are read

Of a value that `Json.prettyAt` writes, `byteValue` reads bytes and nothing else
(`run_byteValue_iff`), and `skipValue` passes over any value, up to its last character
(`run_skipValue`). A list and an object are passed over alike: what differs is what stands in front
of each value in them, nothing or a key and a colon (`Label`).
-/

namespace Botscript.Json

open Reader

variable {c : Char} {text more label rest blanks : List Char} {bracket : Bracket} {bound : Nat}
  {outer : List Bracket}

/-! ## The texts of values -/

section Texts

variable (level : Nat)

theorem toList_null : (null.prettyAt level).toList = ['n', 'u', 'l', 'l'] := by
  rw [prettyAt]
  rfl

theorem toList_number (n : Nat) : ((number n).prettyAt level).toList = Nat.toDigits 10 n := by
  rw [prettyAt]
  exact Nat.toList_repr

theorem toList_string (text : String) :
    ((string text).prettyAt level).toList = (quote text).toList := by
  rw [prettyAt]

theorem toList_list_nil : ((list []).prettyAt level).toList = ['[', ']'] := by
  rw [prettyAt]
  rfl

theorem toList_list_cons (first : Json) (items : List Json) :
    ((list (first :: items)).prettyAt level).toList =
      '[' :: ((newLine (level + 1)).toList ++ ((first.prettyAt (level + 1)).toList ++
        ((prettyItems (level + 1) items).toList ++ ((newLine level).toList ++ [']'])))) := by
  simp [prettyAt]

theorem toList_object_nil : ((object []).prettyAt level).toList = ['\x7b', '\x7d'] := by
  rw [prettyAt]
  rfl

theorem toList_object_cons (key : String) (value : Json) (members : List (String × Json)) :
    ((object ((key, value) :: members)).prettyAt level).toList =
      '\x7b' :: ((newLine (level + 1)).toList ++ ((quote key).toList ++ ':' :: ' ' ::
        ((value.prettyAt (level + 1)).toList ++ ((prettyMembers (level + 1) members).toList ++
          ((newLine level).toList ++ ['\x7d']))))) := by
  simp [prettyAt]

theorem toList_items_nil : (prettyItems level []).toList = [] := by
  rw [prettyItems]
  rfl

theorem toList_items_cons (item : Json) (items : List Json) :
    (prettyItems level (item :: items)).toList =
      ',' :: ((newLine level).toList ++ ((item.prettyAt level).toList ++
        (prettyItems level items).toList)) := by
  simp [prettyItems]

theorem toList_members_nil : (prettyMembers level []).toList = [] := by
  rw [prettyMembers]
  rfl

theorem toList_members_cons (key : String) (value : Json) (members : List (String × Json)) :
    (prettyMembers level ((key, value) :: members)).toList =
      ',' :: ((newLine level).toList ++ ((quote key).toList ++ ':' :: ' ' ::
        ((value.prettyAt level).toList ++ (prettyMembers level members).toList))) := by
  simp [prettyMembers]

end Texts

theorem isBlank_newLine (level : Nat) : ∀ c ∈ (newLine level).toList, isBlank c := by
  simp only [newLine, String.toList_append, String.toList_join, List.forall_mem_append,
    List.mem_flatMap, List.mem_replicate]
  refine ⟨List.all_eq_true.1 (by decide), ?_⟩
  rintro c ⟨_, ⟨-, rfl⟩, hc⟩
  exact List.all_eq_true.1 (by decide) c hc

/-- What a value begins with. -/
structure Front (value : Json) (c : Char) : Prop where
  blank : ¬ isBlank c
  number : startsNumber c ↔ ∃ n, value = .number n
  close : c ∉ [']', '\x7d']

-- The lists are run through by `all`, not by a search through all characters.
theorem front_of_isDigit (hc : c.isDigit) (n : Nat) : Front (number n) c where
  blank hb := by
    have hall : ∀ d ∈ [' ', '\n', '\t', '\r'], ¬ d.isDigit :=
      List.all_iff_forall_prop.1 (by decide)
    exact hall c (of_decide_eq_true hb) hc
  number := by simp [startsNumber, hc]
  close hclose := by
    have hall : ∀ d ∈ [']', '\x7d'], ¬ d.isDigit := List.all_iff_forall_prop.1 (by decide)
    exact hall c hclose hc

/-- A value that is no number begins with a letter, a quote or a bracket. -/
theorem front_of_mem {value : Json} (hc : c ∈ ['n', '"', '[', '\x7b'])
    (hvalue : ∀ n, value ≠ .number n) : Front value c := by
  have hall : ∀ d ∈ ['n', '"', '[', '\x7b'],
      ¬ isBlank d ∧ ¬ startsNumber d ∧ d ∉ [']', '\x7d'] :=
    List.all_iff_forall_prop.1 (by decide)
  obtain ⟨hblank, hstart, hclose⟩ := hall c hc
  exact ⟨hblank, by simp [hstart, hvalue], hclose⟩

theorem exists_front (value : Json) (level : Nat) :
    ∃ c text, (value.prettyAt level).toList = c :: text ∧ Front value c := by
  cases value with
  | null => exact ⟨_, _, toList_null level, front_of_mem (by simp) (by simp)⟩
  | number n =>
    obtain ⟨c, digits, hdigits⟩ :=
      List.exists_cons_of_ne_nil (Nat.toDigits_ne_nil (b := 10) (n := n))
    have hc := isDigit_toDigits n c (by simp [hdigits])
    exact ⟨c, digits, (toList_number level n).trans hdigits, front_of_isDigit hc n⟩
  | string text =>
    have htext := (toList_string level text).trans (toList_quote text)
    exact ⟨_, _, htext, front_of_mem (by simp) (by simp)⟩
  | list items =>
    cases items with
    | nil => exact ⟨_, _, toList_list_nil level, front_of_mem (by simp) (by simp)⟩
    | cons first items =>
      exact ⟨_, _, toList_list_cons level first items, front_of_mem (by simp) (by simp)⟩
  | object members =>
    cases members with
    | nil => exact ⟨_, _, toList_object_nil level, front_of_mem (by simp) (by simp)⟩
    | cons first members =>
      exact ⟨_, _, toList_object_cons level first.1 first.2 members,
        front_of_mem (by simp) (by simp)⟩

/-! ## Bytes -/

theorem run_refuseValue {α : Type} {a : α} : refuseValue.run text ≠ .ok (a, rest) := fun h => by
  obtain ⟨c, _, -, h⟩ := run_bind_iff.1 h
  split at h
  · obtain ⟨_, _, -, h⟩ := run_bind_iff.1 h
    cases h
  split at h
  · obtain ⟨_, _, -, h⟩ := run_bind_iff.1 h
    cases h
  split at h
  · obtain ⟨_, _, -, h⟩ := run_bind_iff.1 h
    cases h
  · cases h

/-- A byte is read from a number below 256, and from nothing else. -/
theorem run_byteValue_iff {value : Json} {level : Nat} {b : UInt8} {left : List Char}
    (hblanks : ∀ c ∈ blanks, isBlank c) (hrest : EndsNumber rest) :
    byteValue.run (blanks ++ ((value.prettyAt level).toList ++ rest)) = .ok (b, left) ↔
      value = .number b.toNat ∧ left = rest := by
  obtain ⟨c, text, htext, hfront⟩ := exists_front value level
  rw [byteValue, htext, List.cons_append, run_bind_of_ok (run_ahead hblanks hfront.blank)]
  by_cases hstart : startsNumber c
  · obtain ⟨n, rfl⟩ := hfront.number.1 hstart
    rw [if_pos hstart, ← List.cons_append, ← htext, toList_number]
    constructor
    · intro hrun
      obtain ⟨found, mid, hnumber, h⟩ := run_bind_iff.1 hrun
      cases found with
      | none => cases h
      | some m =>
        obtain ⟨-, rfl, rfl⟩ := (run_number_iff hrest).1 hnumber
        dsimp only at h
        split at h <;> rename_i hlt
        · cases h
          exact ⟨congrArg _ (UInt8.toNat_ofNat_of_lt' hlt).symm, rfl⟩
        · cases h
    · rintro ⟨he, rfl⟩
      cases he
      have hlt := b.toNat_lt
      have hword : b.toNat ≤ largestWord := le_trans hlt.le (by decide)
      rw [run_bind_of_ok ((run_number_iff hrest).2 ⟨hword, rfl, rfl⟩)]
      refine (congrArg (StateT.run · left) (if_pos hlt)).trans ?_
      rw [UInt8.ofNat_toNat]
      rfl
  · rw [if_neg hstart]
    refine iff_of_false run_refuseValue ?_
    rintro ⟨rfl, -⟩
    exact hstart (hfront.number.2 ⟨_, rfl⟩)

/-! ## Passing over values -/

/-- What is done behind a part: nothing more, or more parts. -/
def goOn (bound : Nat) : Option (List Bracket) → Reader Unit
  | none => return
  | some inner => skipPartsUpTo bound inner

/-- What is done behind the end of a value. -/
def leave (bound : Nat) (outer : List Bracket) : Reader Unit := skipToNext outer >>= goOn bound

theorem skipPartsUpTo_succ (bound : Nat) (outer : List Bracket) :
    skipPartsUpTo (bound + 1) outer = skipPart outer >>= goOn bound := by
  rw [skipPartsUpTo]
  congr 1

/-- A text is passed over wherever it stands, in no more parts than characters. -/
def Passed (text : List Char) : Prop :=
  ∃ n ≤ text.length, ∀ bound outer blanks rest, (∀ c ∈ blanks, isBlank c) → EndsNumber rest →
    (skipPartsUpTo (n + bound) outer).run (blanks ++ (text ++ rest)) = (leave bound outer).run rest

/-- A text that goes on behind a value in a bracket is passed over up to the closing bracket. -/
def Closed (bracket : Bracket) (text : List Char) : Prop :=
  ∃ n ≤ text.length, ∀ bound outer rest, EndsNumber (text ++ rest) ∧
    (leave (n + bound) (bracket :: outer)).run (text ++ rest) = (leave bound outer).run rest

/-- What stands in front of an item, and of the value of a member. -/
inductive Label : Bracket → List Char → Prop
  | item : Label .list []
  | member (key : String) : Label .object ((quote key).toList ++ [':', ' '])

theorem run_skipNumber (n : Nat) (hrest : EndsNumber rest) :
    skipNumber.run (Nat.toDigits 10 n ++ rest) = .ok ((), rest) := by
  have hgrammar :
      (do let _ ← wholeDigits; let _ ← fractionDigits; let _ ← exponent : Reader Unit)
        (Nat.toDigits 10 n ++ rest) = .ok ((), rest) :=
    (run_bind_of_ok (run_wholeDigits n hrest)).trans
      ((run_bind_of_ok (run_fractionDigits hrest)).trans (run_bind_of_ok (run_exponent hrest)))
  refine (run_bind_of_ok (run_peek _)).trans ?_
  rw [if_neg (head?_toDigits_ne_minus n rest)]
  refine (run_bind_of_ok rfl).trans ?_
  dsimp only
  rw [hgrammar]
  rfl

theorem passed_scalar (hblank : ¬ isBlank c) (hopen : Bracket.opened? c = none)
    (hskip : ∀ rest, EndsNumber rest → skipScalar.run (c :: (text ++ rest)) = .ok ((), rest)) :
    Passed (c :: text) := by
  refine ⟨1, Nat.le_add_left _ _, fun bound outer blanks rest hblanks hrest => ?_⟩
  have hpart : (skipPart outer).run (blanks ++ (c :: text ++ rest)) =
      (skipToNext outer).run rest := by
    refine (run_bind_of_ok (run_ahead hblanks hblank)).trans ?_
    rw [hopen]
    exact run_bind_of_ok (hskip rest hrest)
  rw [Nat.add_comm, skipPartsUpTo_succ, leave, StateT.run_bind, StateT.run_bind, hpart]

theorem run_skipScalar_null (rest : List Char) :
    skipScalar.run ('n' :: 'u' :: 'l' :: 'l' :: rest) = .ok ((), rest) :=
  run_bind_of_ok (run_ahead_cons (by decide))

theorem run_skipScalar_number {n : Nat} {digits : List Char} (hd : Nat.toDigits 10 n = c :: digits)
    (hfront : Front (number n) c) (hrest : EndsNumber rest) :
    skipScalar.run (c :: (digits ++ rest)) = .ok ((), rest) := by
  refine (run_bind_of_ok (run_ahead_cons hfront.blank)).trans ?_
  rw [if_pos (hfront.number.2 ⟨n, rfl⟩), ← List.cons_append, ← hd]
  exact run_skipNumber n hrest

theorem run_skipScalar_string (text : String) (rest : List Char) :
    skipScalar.run ((quote text).toList ++ rest) = .ok ((), rest) := by
  rw [toList_quote, List.cons_append]
  refine (run_bind_of_ok (run_ahead_cons (by decide))).trans ?_
  rw [if_neg (by decide), if_pos rfl, ← List.cons_append, ← toList_quote]
  exact run_bind_of_ok (run_string text rest)

/-! ### Brackets -/

theorem endsNumber_cons (hc : ¬ c.isDigit ∧ c ∉ ['.', 'e', 'E']) (rest : List Char) :
    EndsNumber (c :: rest) := by
  rintro _ ⟨⟩
  exact hc

theorem endsNumber_append (hblanks : ∀ c ∈ blanks, isBlank c) (hrest : EndsNumber rest) :
    EndsNumber (blanks ++ rest) := by
  cases blanks with
  | nil => exact hrest
  | cons c blanks =>
    have hall : ∀ d ∈ [' ', '\n', '\t', '\r'], ¬ d.isDigit ∧ d ∉ ['.', 'e', 'E'] :=
      List.all_iff_forall_prop.1 (by decide)
    exact endsNumber_cons (hall c (of_decide_eq_true (hblanks c List.mem_cons_self))) _

theorem close_mem (bracket : Bracket) : bracket.close ∈ [']', '\x7d'] := by
  cases bracket <;> decide

theorem not_isBlank_close (bracket : Bracket) : ¬ isBlank bracket.close := by
  cases bracket <;> decide

theorem not_isBlank_of_opened (h : Bracket.opened? c = some bracket) : ¬ isBlank c := by
  unfold Bracket.opened? at h
  split at h
  · decide
  · decide
  · cases h

/-- Behind a label stands a value, with blanks in front or none. -/
theorem run_skipLabel (h : Label bracket label) (hblanks : ∀ c ∈ blanks, isBlank c) :
    ∃ between, (∀ c ∈ between, isBlank c) ∧ ∀ text,
      (skipLabel bracket).run (blanks ++ (label ++ text)) = .ok ((), between ++ text) := by
  cases h with
  | item => exact ⟨blanks, hblanks, fun _ => rfl⟩
  | member key =>
    refine ⟨[' '], List.forall_mem_singleton.2 rfl, fun text => ?_⟩
    rw [List.append_assoc]
    refine (run_bind_of_ok (run_ahead_quote hblanks key _)).trans ?_
    rw [if_neg (by decide)]
    exact (run_bind_of_ok (run_string key _)).trans (run_mark_cons (by decide))

/-- What stands behind the opening bracket, or behind a comma, is no closing bracket. -/
theorem exists_front_label (h : Label bracket label) (value : Json) (level : Nat) :
    ∃ c text, label ++ (value.prettyAt level).toList = c :: text ∧ ¬ isBlank c ∧
      c ≠ bracket.close := by
  cases h with
  | item =>
    obtain ⟨c, text, htext, hfront⟩ := exists_front value level
    exact ⟨c, text, htext, hfront.blank, fun he => hfront.close (he ▸ close_mem _)⟩
  | member key =>
    rw [toList_quote]
    exact ⟨'"', _, rfl, by decide, by decide⟩

theorem passed_empty (hopen : Bracket.opened? c = some bracket) : Passed [c, bracket.close] := by
  refine ⟨1, Nat.le_succ 1, fun bound outer blanks rest hblanks _ => ?_⟩
  have hpart : (skipPart outer).run (blanks ++ ([c, bracket.close] ++ rest)) =
      (skipToNext outer).run rest := by
    refine (run_bind_of_ok (run_ahead hblanks (not_isBlank_of_opened hopen))).trans ?_
    rw [hopen]
    refine (run_bind_of_ok rfl).trans ?_
    refine (run_bind_of_ok (run_ahead_cons (not_isBlank_close bracket))).trans ?_
    rw [if_pos rfl]
    exact run_bind_of_ok rfl
  rw [Nat.add_comm, skipPartsUpTo_succ, leave, StateT.run_bind, StateT.run_bind, hpart]

/-- The first value in brackets, and what closes them behind it. -/
theorem passed_brackets {value : Json} {level : Nat} (hopen : Bracket.opened? c = some bracket)
    (hblanks : ∀ c ∈ blanks, isBlank c) (hlabel : Label bracket label)
    (hvalue : Passed (value.prettyAt level).toList) (hmore : Closed bracket more) :
    Passed (c :: (blanks ++ (label ++ ((value.prettyAt level).toList ++ more)))) := by
  obtain ⟨n, hn, hvalue⟩ := hvalue
  obtain ⟨m, hm, hmore⟩ := hmore
  refine ⟨n + m + 1, ?_, fun bound outer before rest hbefore _ => ?_⟩
  · simp only [List.length_cons, List.length_append]
    omega
  obtain ⟨between, hbetween, hskip⟩ := run_skipLabel hlabel (List.forall_mem_nil _)
  obtain ⟨d, front, hfront, hblank, hclose⟩ := exists_front_label hlabel value level
  have hpart : (skipPart outer).run
      (before ++ (c :: (blanks ++ (label ++ ((value.prettyAt level).toList ++ more))) ++ rest)) =
        .ok (some (bracket :: outer),
          between ++ ((value.prettyAt level).toList ++ (more ++ rest))) := by
    have hahead : ahead.run (blanks ++ (label ++ ((value.prettyAt level).toList ++ more)) ++ rest) =
        .ok (d, label ++ ((value.prettyAt level).toList ++ (more ++ rest))) := by
      rw [← List.append_assoc label, ← List.append_assoc label, hfront]
      simp only [List.cons_append, List.append_assoc]
      exact run_ahead hblanks hblank
    refine (run_bind_of_ok (run_ahead hbefore (not_isBlank_of_opened hopen))).trans ?_
    rw [hopen]
    refine (run_bind_of_ok rfl).trans ?_
    refine (run_bind_of_ok hahead).trans ?_
    rw [if_neg hclose]
    exact run_bind_of_ok (hskip _)
  obtain ⟨hends, hleave⟩ := hmore bound outer rest
  rw [Nat.add_right_comm, skipPartsUpTo_succ, run_bind_of_ok hpart, Nat.add_assoc, ← hleave]
  exact hvalue _ _ _ _ hbetween hends

theorem closed_nil (hblanks : ∀ c ∈ blanks, isBlank c) :
    Closed bracket (blanks ++ [bracket.close]) := by
  refine ⟨0, Nat.zero_le _, fun bound outer rest => ?_⟩
  have hnext : (skipToNext (bracket :: outer)).run (blanks ++ [bracket.close] ++ rest) =
      (skipToNext outer).run rest := by
    rw [List.append_assoc]
    refine (run_bind_of_ok (run_ahead hblanks (not_isBlank_close bracket))).trans ?_
    rw [if_pos rfl]
    exact run_bind_of_ok rfl
  refine ⟨?_, ?_⟩
  · rw [List.append_assoc]
    exact endsNumber_append hblanks (endsNumber_cons (by cases bracket <;> decide) rest)
  · rw [Nat.zero_add, leave, leave, StateT.run_bind, StateT.run_bind, hnext]

theorem closed_cons (hblanks : ∀ c ∈ blanks, isBlank c) (hlabel : Label bracket label)
    (htext : Passed text) (hmore : Closed bracket more) :
    Closed bracket (',' :: (blanks ++ (label ++ (text ++ more)))) := by
  obtain ⟨n, hn, htext⟩ := htext
  obtain ⟨m, hm, hmore⟩ := hmore
  refine ⟨n + m, ?_, fun bound outer rest => ?_⟩
  · simp only [List.length_cons, List.length_append]
    omega
  obtain ⟨between, hbetween, hlabel⟩ := run_skipLabel hlabel hblanks
  have hnext : (skipToNext (bracket :: outer)).run
      (',' :: (blanks ++ (label ++ (text ++ more))) ++ rest) =
        .ok (some (bracket :: outer), between ++ (text ++ (more ++ rest))) := by
    refine (run_bind_of_ok (run_ahead_cons (by decide))).trans ?_
    rw [if_neg (by cases bracket <;> decide), if_pos rfl]
    refine (run_bind_of_ok rfl).trans ?_
    have hskip : (skipLabel bracket).run (blanks ++ (label ++ (text ++ more)) ++ rest) =
        .ok ((), between ++ (text ++ (more ++ rest))) := by
      simpa using hlabel (text ++ (more ++ rest))
    exact run_bind_of_ok hskip
  obtain ⟨hends, hleave⟩ := hmore bound outer rest
  rw [leave, run_bind_of_ok hnext, Nat.add_assoc, ← hleave]
  exact ⟨endsNumber_cons (by decide) _, htext _ _ _ _ hbetween hends⟩

/-! ### Values -/

mutual

theorem passed_prettyAt (value : Json) (level : Nat) : Passed (value.prettyAt level).toList := by
  have hlist : Bracket.opened? '[' = some .list := rfl
  have hobject : Bracket.opened? '\x7b' = some .object := rfl
  match value with
  | null =>
    rw [toList_null]
    exact passed_scalar (by decide) rfl fun rest _ => run_skipScalar_null rest
  | number n =>
    obtain ⟨c, digits, hdigits⟩ :=
      List.exists_cons_of_ne_nil (Nat.toDigits_ne_nil (b := 10) (n := n))
    have hc := isDigit_toDigits n c (by simp [hdigits])
    have hfront := front_of_isDigit hc n
    have hopen : Bracket.opened? c = none := by
      unfold Bracket.opened?
      split
      · exact absurd hc (by decide)
      · exact absurd hc (by decide)
      · rfl
    rw [toList_number, hdigits]
    exact passed_scalar hfront.blank hopen fun rest => run_skipScalar_number hdigits hfront
  | string text =>
    rw [toList_string, toList_quote]
    refine passed_scalar (by decide) rfl fun rest _ => ?_
    rw [← List.cons_append, ← toList_quote]
    exact run_skipScalar_string text rest
  | list [] =>
    rw [toList_list_nil]
    exact passed_empty hlist
  | list (first :: items) =>
    have h := passed_brackets hlist (isBlank_newLine (level + 1)) .item
      (passed_prettyAt first (level + 1)) (closed_prettyItems items (level + 1) level)
    rwa [toList_list_cons]
  | object [] =>
    rw [toList_object_nil]
    exact passed_empty hobject
  | object ((key, value) :: members) =>
    have h := passed_brackets hobject (isBlank_newLine (level + 1)) (.member key)
      (passed_prettyAt value (level + 1)) (closed_prettyMembers members (level + 1) level)
    rw [toList_object_cons]
    simpa using h

theorem closed_prettyItems (items : List Json) (level outerLevel : Nat) :
    Closed .list ((prettyItems level items).toList ++ ((newLine outerLevel).toList ++ [']'])) := by
  match items with
  | [] =>
    rw [toList_items_nil]
    exact closed_nil (isBlank_newLine _)
  | item :: items =>
    rw [toList_items_cons]
    have h := closed_cons (isBlank_newLine level) .item (passed_prettyAt item level)
      (closed_prettyItems items level outerLevel)
    simpa using h

theorem closed_prettyMembers (members : List (String × Json)) (level outerLevel : Nat) :
    Closed .object
      ((prettyMembers level members).toList ++ ((newLine outerLevel).toList ++ ['\x7d'])) := by
  match members with
  | [] =>
    rw [toList_members_nil]
    exact closed_nil (isBlank_newLine _)
  | (key, value) :: members =>
    rw [toList_members_cons]
    have h := closed_cons (isBlank_newLine level) (.member key) (passed_prettyAt value level)
      (closed_prettyMembers members level outerLevel)
    simpa using h

end

/-- A value that is written is passed over, and nothing behind it. -/
theorem run_skipValue (value : Json) (level : Nat) (hblanks : ∀ c ∈ blanks, isBlank c)
    (hrest : EndsNumber rest) :
    skipValue.run (blanks ++ ((value.prettyAt level).toList ++ rest)) = .ok ((), rest) := by
  obtain ⟨n, hn, hpassed⟩ := passed_prettyAt value level
  generalize (value.prettyAt level).toList = text at hn hpassed ⊢
  obtain ⟨bound, hbound⟩ : ∃ bound, (blanks ++ (text ++ rest)).length + 1 = n + bound :=
    Nat.exists_eq_add_of_le (by simp only [List.length_append]; omega)
  refine (run_bind_of_ok rfl).trans ?_
  rw [hbound, hpassed bound [] blanks rest hblanks hrest]
  rfl

end Botscript.Json
