import Botscript.Text.Escape
import Botscript.Proofs.Text.Radix

/-!
# What escapes stand for

`Reads signs text c rest` says that a text, behind a backslash, begins with an escape of `c` and
goes on with `rest`, and `Spelled signs body out` that a body is characters and escapes that stand
for `out`. With `signs`, a plus sign may stand for the first digit of a code. `Escape.read` finds
the escape and what follows it (`Reads.read`, `reads_of_read`), and `unescape` decodes the bodies
that are spelled with signs; those without a sign where a digit should be (`Signed`) are spelled
without signs (`unescape_spelled`).
-/

namespace Botscript

open Numeral (Number IsDigit number_cons digitValue?_eq_none digitValue?_eq_some)

namespace Escape

/-! ## The escapes -/

/-- The escapes of one letter, and what they stand for. -/
def names : List (Char × Char) :=
  [('n', '\n'), ('t', '\t'), ('b', '\x08'), ('r', '\r'), ('f', '\x0c'), ('"', '"'), ('\'', '\''),
    ('\\', '\\')]

/-- The letters in front of a code, and its number of digits. -/
def widths : List (Char × Nat) := [('x', 2), ('u', 4)]

/-- The number of octal digits that may follow a first one. -/
def more (first : Char) : Nat := if first ≤ '3' then 2 else 1

/-- A text does not begin with an octal digit. -/
def NoOctal (text : List Char) : Prop := ∀ c rest, text = c :: rest → ∀ v, ¬ IsDigit 8 c v

/-- A text begins with an escape without its backslash, for a character, and goes on with the
rest. -/
inductive Reads (signs : Bool) : List Char → Char → List Char → Prop
  | named {selector c : Char} {rest : List Char} (h : (selector, c) ∈ names) :
    Reads signs (selector :: rest) c rest
  | octal {first c : Char} {digits rest : List Char} (hn : Number 8 (first :: digits) c.toNat)
    (hlength : digits.length ≤ more first)
    (hmax : digits.length < more first → NoOctal rest) :
    Reads signs (first :: (digits ++ rest)) c rest
  | coded {selector c : Char} {width : Nat} {digits rest : List Char}
    (h : (selector, width) ∈ widths) (hlength : digits.length = width)
    (hn : Numeral.Signed signs 16 digits c.toNat) :
    Reads signs (selector :: (digits ++ rest)) c rest

/-- A body is a sequence of characters and escapes, which stand for some characters. -/
inductive Spelled (signs : Bool) : List Char → List Char → Prop
  | nil : Spelled signs [] []
  | plain {c : Char} {rest out : List Char} (hc : c ≠ '\\') (h : Spelled signs rest out) :
    Spelled signs (c :: rest) (c :: out)
  | escape {text rest out : List Char} {c : Char} (hc : Reads signs text c rest)
    (h : Spelled signs rest out) : Spelled signs ('\\' :: text) (c :: out)

/-- A plus sign stands where the first digit of a code should be. -/
inductive Signed : List Char → Prop
  | here {selector : Char} {width : Nat} {text : List Char} (h : (selector, width) ∈ widths) :
    Signed ('\\' :: selector :: '+' :: text)
  | plain {c : Char} {rest : List Char} (hc : c ≠ '\\') (h : Signed rest) : Signed (c :: rest)
  | escape {text rest : List Char} {c : Char} (hc : Reads true text c rest) (h : Signed rest) :
    Signed ('\\' :: text)

variable {signs : Bool} {c first selector : Char} {count width length : Nat}
  {text rest digits body out : List Char}

/-! ## One letter -/

theorem simple?_eq_some : simple? selector = some c ↔ (selector, c) ∈ names := by
  unfold simple?
  split <;> simp_all [names, eq_comm]

theorem width?_eq_some : width? selector = some width ↔ (selector, width) ∈ widths := by
  unfold width?
  split <;> simp_all [widths, eq_comm]

/-- A letter of a table without octal digits is none. -/
theorem not_isDigit_of_mem {α : Type} {table : List (Char × α)} {value : α}
    (htable : ∀ entry ∈ table, Numeral.digitValue? 8 entry.1 = none)
    (h : (selector, value) ∈ table) (v : Nat) : ¬ IsDigit 8 selector v :=
  (digitValue?_eq_none (by decide)).1 (htable _ h) v

theorem simple?_of_isDigit {v : Nat} (h : IsDigit 8 selector v) : simple? selector = none := by
  have hnames : ∀ name ∈ names, Numeral.digitValue? 8 name.1 = none := by decide
  exact Option.eq_none_iff_forall_ne_some.2 fun _ hc =>
    not_isDigit_of_mem hnames (simple?_eq_some.1 hc) v h

theorem not_isDigit_of_width (h : (selector, width) ∈ widths) (v : Nat) : ¬ IsDigit 8 selector v :=
  not_isDigit_of_mem (by decide) h v

theorem width?_of_isDigit {v : Nat} (h : IsDigit 8 selector v) : width? selector = none :=
  Option.eq_none_iff_forall_ne_some.2 fun _ hc => not_isDigit_of_width (width?_eq_some.1 hc) v h

theorem simple?_of_width (h : (selector, width) ∈ widths) : simple? selector = none := by
  have hwidths : ∀ width ∈ widths, simple? width.1 = none := by decide
  exact hwidths _ h

/-! ## Codes -/

theorem toNat_ofNat {code : Nat} (h : code.isValidChar) : (Char.ofNat code).toNat = code := by
  rw [Char.ofNat, dif_pos h]
  rfl

theorem scalar?_eq_some {code : Nat} : scalar? code = some c ↔ code = c.toNat := by
  unfold scalar?
  split
  next h => rw [Option.some.injEq, ← Char.toNat_inj, toNat_ofNat h]
  next h => exact iff_of_false nofun fun hc => h (hc ▸ c.valid)

theorem byteLength_of_signed {n : Nat} (h : Numeral.Signed signs 16 text n) :
    byteLength text = text.length := by
  obtain ⟨-, hn⟩ | ⟨-, digits, rfl, -, hn⟩ := h
  · exact hn.byteLength (Nat.le_refl _)
  · rw [byteLength_cons, hn.byteLength (Nat.le_refl _), List.length_cons, Nat.add_comm]
    rfl

theorem coded?_eq_some : coded? width text = some c ↔
    text.length = width ∧ Numeral.Signed true 16 text c.toNat := by
  have hread (n : Nat) : (Numeral.read 16 (UInt32.size - 1) text).toOption = some n ↔
      n ≤ UInt32.size - 1 ∧ Numeral.Signed true 16 text n := by
    rw [← Numeral.read_eq_ok (Nat.le_refl _)]
    cases Numeral.read 16 (UInt32.size - 1) text <;> simp [Except.toOption]
  unfold coded?
  split
  next h =>
    simp only [Option.bind_eq_some_iff, hread, scalar?_eq_some]
    constructor
    · rintro ⟨_, ⟨-, hn⟩, rfl⟩
      exact ⟨(byteLength_of_signed hn).symm.trans h, hn⟩
    · rintro ⟨-, hn⟩
      exact ⟨_, ⟨Nat.le_of_lt_succ c.val.toNat_lt, hn⟩, rfl⟩
  next h => exact iff_of_false nofun fun hc => h ((byteLength_of_signed hc.2).trans hc.1)

/-! ## Octal digits -/

theorem isSome_digitValue? : (Numeral.digitValue? 8 c).isSome ↔ ∃ v, IsDigit 8 c v := by
  simp only [Option.isSome_iff_exists, digitValue?_eq_some (show 8 ≤ 16 by decide)]

theorem octalRun_succ (count : Nat) (c : Char) (text : List Char) :
    octalRun (count + 1) (c :: text) =
      if (Numeral.digitValue? 8 c).isSome then c :: octalRun count text else [] := by
  rw [octalRun, List.take_succ_cons, List.takeWhile_cons]
  rfl

/-- The octal digits at the front of a text are as many as are there and are counted. -/
theorem octalRun_eq_iff : octalRun count (digits ++ rest) = digits ↔
    (∀ d ∈ digits, ∃ v, IsDigit 8 d v) ∧ digits.length ≤ count ∧
      (digits.length < count → NoOctal rest) := by
  induction digits generalizing count with
  | nil =>
    cases count with
    | zero => simp [octalRun]
    | succ count =>
      cases rest with
      | nil => simp [octalRun, NoOctal]
      | cons c rest => simp [octalRun_succ, isSome_digitValue?, NoOctal]
  | cons d digits ih =>
    cases count with
    | zero => simp [octalRun]
    | succ count =>
      simp only [← isSome_digitValue?] at ih ⊢
      simp only [List.cons_append, octalRun_succ, List.forall_mem_cons, List.length_cons,
        Nat.add_le_add_iff_right, Nat.add_lt_add_iff_right]
      split
      next h => rw [List.cons_inj_right, ih, and_iff_right h]
      next h => exact iff_of_false nofun fun hd => h hd.1.1

theorem octalRun_isPrefix (count : Nat) (text : List Char) : octalRun count text <+: text :=
  (List.takeWhile_prefix _).trans (List.take_prefix ..)

theorem toNat_of_octal {v : Nat} (h : IsDigit 8 c v) : c.toNat - '0'.toNat = v := by
  have hv := (digitValue?_eq_some (show 8 ≤ 16 by decide)).2 h
  unfold Numeral.digitValue? at hv
  split at hv
  · simp_all [Option.filter_eq_some_iff]
  · split at hv
    · simp [Option.filter_eq_some_iff] at hv
      omega
    · split at hv
      · simp [Option.filter_eq_some_iff] at hv
        omega
      · cases hv

theorem octalValue_eq {n : Nat} (h : Number 8 digits n) : octalValue digits = n := by
  have hfold (value : Nat) : digits.foldl (fun value c => value * 8 + (c.toNat - '0'.toNat)) value =
      value * 8 ^ digits.length + n := by
    induction digits generalizing value n with
    | nil => simp [Numeral.number_nil.1 h]
    | cons d digits ih =>
      obtain ⟨v, m, hd, hm, rfl⟩ := number_cons.1 h
      rw [List.foldl_cons, toNat_of_octal hd, ih hm, List.length_cons, Nat.pow_succ', Nat.add_mul,
        Nat.mul_assoc, Nat.add_assoc]
  rw [octalValue, hfold, Nat.zero_mul, Nat.zero_add]

/-- The code of an octal escape is below those of the surrogates. -/
theorem isValidChar_of_octal {n : Nat} (h : Number 8 (first :: digits) n)
    (hlength : digits.length ≤ more first) : n.isValidChar := by
  have hmore : more first ≤ 2 := by
    unfold more
    split <;> decide
  have hlt : n < 8 ^ 3 :=
    Nat.lt_of_lt_of_le h.lt_pow
      (Nat.pow_le_pow_right (by decide) (Nat.succ_le_succ (hlength.trans hmore)))
  exact .inl (hlt.trans (by decide))

/-! ## One escape -/

theorem read_octal {v : Nat} (h : IsDigit 8 first v) (text : List Char) :
    read (first :: text) =
      .ok (Char.ofNat (octalValue (first :: octalRun (more first) text)),
        (octalRun (more first) text).length + 1) := by
  rw [read]
  simp only [simple?_of_isDigit h, width?_of_isDigit h, isSome_digitValue?.2 ⟨v, h⟩, if_true]
  rfl

theorem reads_octal {v : Nat} (h : IsDigit 8 first v) (text : List Char) :
    Reads signs (first :: text) (Char.ofNat (octalValue (first :: octalRun (more first) text)))
      (text.drop (octalRun (more first) text).length) := by
  obtain ⟨rest, htext⟩ := octalRun_isPrefix (more first) text
  generalize hrun : octalRun (more first) text = digits at htext ⊢
  subst htext
  obtain ⟨hdigits, hlength, hmax⟩ := octalRun_eq_iff.1 hrun
  obtain ⟨m, hm⟩ := Numeral.exists_number.2 hdigits
  have hn := number_cons.2 ⟨v, m, h, hm, rfl⟩
  rw [List.drop_left, octalValue_eq hn]
  exact .octal (by rwa [toNat_ofNat (isValidChar_of_octal hn hlength)]) hlength hmax

/-- An escape is read, with its length. -/
theorem Reads.read (h : Reads true text c rest) :
    ∃ length, read text = .ok (c, length) ∧ text.drop length = rest := by
  cases h with
  | named h =>
    refine ⟨1, ?_, rfl⟩
    rw [Escape.read, simple?_eq_some.2 h]
  | @octal first _ digits _ hn hlength hmax =>
    obtain ⟨v, m, hv, hm, -⟩ := number_cons.1 hn
    have hrun := octalRun_eq_iff.2 ⟨Numeral.exists_number.1 ⟨m, hm⟩, hlength, hmax⟩
    refine ⟨digits.length + 1, ?_, List.drop_left ..⟩
    rw [read_octal hv, hrun, octalValue_eq hn, Char.ofNat_toNat]
  | @coded selector _ width digits _ h hlength hn =>
    have htake : (digits ++ rest).take width = digits := hlength ▸ List.take_left ..
    refine ⟨width + 1, ?_, hlength ▸ List.drop_left ..⟩
    simp only [Escape.read, simple?_of_width h, width?_eq_some.2 h, htake,
      coded?_eq_some.2 ⟨hlength, hn⟩]

/-- What is read is an escape. -/
theorem reads_of_read (h : read text = .ok (c, length)) : Reads true text c (text.drop length) := by
  cases text with
  | nil => cases h
  | cons selector text =>
    rw [Escape.read] at h
    split at h
    next hs =>
      cases h
      exact .named (simple?_eq_some.1 hs)
    next width hs hw =>
      split at h
      next hc =>
        cases h
        obtain ⟨hlength, hn⟩ := coded?_eq_some.1 hc
        have hreads : Reads true (selector :: (text.take width ++ text.drop width)) c
          (text.drop width) := .coded (width?_eq_some.1 hw) hlength hn
        rwa [List.take_append_drop] at hreads
      next => cases h
    next hs hw =>
      split at h
      next hd =>
        obtain ⟨v, hv⟩ := isSome_digitValue?.1 hd
        cases h
        exact reads_octal hv text
      next => cases h

/-- There is only one way to read an escape. -/
theorem Reads.unique {c' : Char} {rest' : List Char} (h : Reads true text c rest)
    (h' : Reads true text c' rest') : c = c' ∧ rest = rest' := by
  obtain ⟨length, hread, rfl⟩ := h.read
  obtain ⟨length', hread', rfl⟩ := h'.read
  rw [hread] at hread'
  cases hread'
  exact ⟨rfl, rfl⟩

theorem Reads.length_lt (h : Reads signs text c rest) : rest.length < text.length := by
  cases h with
  | named => exact Nat.lt_succ_self _
  | octal => exact Nat.lt_succ_of_le ((List.suffix_append ..).length_le)
  | coded => exact Nat.lt_succ_of_le ((List.suffix_append ..).length_le)

/-- Without signs there are fewer escapes. -/
theorem Reads.lax (h : Reads false text c rest) : Reads true text c rest := by
  cases h with
  | named h => exact .named h
  | octal hn hlength hmax => exact .octal hn hlength hmax
  | coded h hlength hn => exact .coded h hlength (hn.imp_right nofun)

/-- An escape has a plus sign in front of its code, or it does not need one. -/
theorem Reads.strict_or (h : Reads true text c rest) :
    Reads false text c rest ∨ Signed ('\\' :: text) := by
  cases h with
  | named h => exact .inl (.named h)
  | octal hn hlength hmax => exact .inl (.octal hn hlength hmax)
  | coded h hlength hn =>
    obtain hn | ⟨-, digits, rfl, -⟩ := hn
    · exact .inl (.coded h hlength (.inl hn))
    · exact .inr (.here h)

theorem Reads.ne_sign (h : Reads false (selector :: text) c rest)
    (hs : (selector, width) ∈ widths) (after : List Char) : text ≠ '+' :: after := by
  cases h with
  | named h =>
    have := simple?_of_width hs
    rw [simple?_eq_some.2 h] at this
    cases this
  | octal hn hlength hmax =>
    obtain ⟨v, -, hv, -⟩ := number_cons.1 hn
    exact absurd hv (not_isDigit_of_width hs _)
  | coded h hlength hn =>
    obtain ⟨hne, hn⟩ | ⟨hsigns, -⟩ := hn
    · obtain ⟨d, digits, rfl⟩ := List.exists_cons_of_ne_nil hne
      obtain ⟨v, -, hv, -⟩ := number_cons.1 hn
      rintro he
      obtain ⟨rfl, -⟩ := List.cons.inj he
      exact Numeral.not_isDigit_plus (Nat.le_refl _) hv
    · cases hsigns

/-! ## Bodies -/

theorem map_cons_eq_ok {result : Except (List Char) (List Char)} :
    (c :: ·) <$> result = .ok out ↔ ∃ out', result = .ok out' ∧ out = c :: out' := by
  cases result with
  | error bad => simp [Functor.map, Except.map]
  | ok out' => simp [Functor.map, Except.map, eq_comm]

/-- The bodies that are decoded are those that are spelled, signs and all. -/
theorem unescape_eq_ok : unescape body = .ok out ↔ Spelled true body out := by
  constructor
  · -- an escape ends the further right the shorter the rest is, whatever its length
    induction hsize : body.length using Nat.strong_induction_on generalizing body out with
    | _ size ih =>
      intro h
      cases body with
      | nil => cases h; exact .nil
      | cons c rest =>
        subst hsize
        by_cases hc : c = '\\'
        · subst hc
          rw [unescape_backslash] at h
          split at h
          next decoded length hread =>
            obtain ⟨out, hout, rfl⟩ := map_cons_eq_ok.1 h
            have hreads := reads_of_read hread
            exact .escape hreads (ih _ (hreads.length_lt.trans (Nat.lt_succ_self _)) rfl hout)
          next => cases h
        · rw [unescape_cons_of_ne hc] at h
          obtain ⟨out, hout, rfl⟩ := map_cons_eq_ok.1 h
          exact .plain hc (ih _ (Nat.lt_succ_self _) rfl hout)
  · intro h
    induction h with
    | nil => rfl
    | plain hc _ ih =>
      rw [unescape_cons_of_ne hc, ih]
      rfl
    | escape hc _ ih =>
      obtain ⟨length, hread, rfl⟩ := hc.read
      rw [unescape_backslash, hread]
      simp only [ih]
      rfl

theorem Spelled.lax (h : Spelled false body out) : Spelled true body out := by
  induction h with
  | nil => exact .nil
  | plain hc _ ih => exact .plain hc ih
  | escape hc _ ih => exact .escape hc.lax ih

theorem Spelled.not_signed (h : Spelled false body out) : ¬ Signed body := by
  induction h with
  | nil => exact nofun
  | plain hc _ ih =>
    rintro (_ | ⟨-, h⟩ | _)
    · exact hc rfl
    · exact ih h
    · exact hc rfl
  | escape hc _ ih =>
    rintro (hs | ⟨hne, -⟩ | ⟨hc', h⟩)
    · exact hc.ne_sign hs _ rfl
    · exact hne rfl
    · exact ih ((hc.lax.unique hc').2 ▸ h)

theorem Spelled.strict (h : Spelled true body out) (hsigned : ¬ Signed body) :
    Spelled false body out := by
  induction h with
  | nil => exact .nil
  | plain hc _ ih => exact .plain hc (ih fun h => hsigned (.plain hc h))
  | escape hc _ ih =>
    exact .escape (hc.strict_or.resolve_right hsigned) (ih fun h => hsigned (.escape hc h))

/-- What `unescape` decodes is characters and escapes, in which a plus sign may stand for the first
digit of a code. The bodies without such a sign are decoded just if their escapes are as they should
be. -/
theorem unescape_spelled (body out : List Char) :
    (unescape body = .ok out ↔ Spelled true body out) ∧
      (Spelled false body out ↔ unescape body = .ok out ∧ ¬ Signed body) := by
  rw [unescape_eq_ok]
  exact ⟨.rfl, fun h => ⟨h.lax, h.not_signed⟩, fun h => h.1.strict h.2⟩

/-- A sign that takes the place of a digit: the body is decoded, though it is not spelled. -/
theorem unescape_sign : unescape ['\\', 'x', '+', '1'] = .ok ['\x01'] ∧
    ∀ out, ¬ Spelled false ['\\', 'x', '+', '1'] out := by
  have hx : ('x', 2) ∈ widths := by decide
  exact ⟨by decide, fun out h => h.not_signed (.here hx)⟩

end Escape

end Botscript
