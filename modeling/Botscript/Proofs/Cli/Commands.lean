import Botscript.Cli.Format
import Botscript.Cli.Message
import Botscript.Proofs.Cli.Arguments
import Botscript.Proofs.Print.RoundTrip
import Botscript.Proofs.Robot.Profile
import Botscript.Proofs.Text.Radix

/-!
# What the commands do

A command that prints complains of nothing, and every other does (`Outcome.stderr_eq_empty_iff`).
What is printed of a program is printed once more as it is (`Format.print_print`), with the names
of functions behind its file on the command line (`Format.run_names`). The operands for a message
are its opcode, a device and bytes (`Message.readMessage?_eq_some`), and for every message and every
firmware there are words and a profile with which that message is printed
(`Message.run_operandsOf`).
-/

namespace Botscript.Cli

open Arguments

theorem Outcome.stderr_eq_empty_iff (o : Outcome) : o.stderr = "" ↔ o.exitCode = 0 := by
  have hline (text : String) : text ++ "\n" ≠ "" := fun h => by
    simpa using congrArg String.toList h
  cases o with
  | printed text => exact iff_of_true rfl rfl
  | misused => exact iff_of_false (by decide) nofun
  | noProfile file fault => exact iff_of_false (show "bad table" ≠ "" by decide) nofun
  | unreadable | noProgram => exact iff_of_false (hline _) nofun

theorem Outcome.stdout_of_exitCode_ne_zero {o : Outcome} (h : o.exitCode ≠ 0) : o.stdout = "" := by
  cases o with
  | printed text => exact absurd rfl h
  | misused | unreadable | noProgram | noProfile => rfl

variable {m : Type → Type} [Monad m] [LawfulMonad m] {readFile : ReadFile m}

/-! ## Formatting -/

namespace Format

variable {args : Arguments} {file source text : String}

theorem exitCode_print : (print args file source).exitCode = 0 ↔
    ∃ p, parse source (FunctionTable.withNames (args.values functionFlag)).registry = .ok p := by
  unfold print
  cases parse source (FunctionTable.withNames (args.values functionFlag)).registry with
  | error e => simp [Outcome.exitCode]
  | ok p => simp [Outcome.exitCode]

/-- A program that was printed is printed again as it is. -/
theorem print_print (hjson : args.count jsonFlag = 0)
    (h : print args file source = .printed text) : print args file text = .printed text := by
  unfold print at h
  cases hparse : parse source (FunctionTable.withNames (args.values functionFlag)).registry with
  | error e =>
    rw [hparse] at h
    cases h
  | ok p =>
    rw [hparse] at h
    obtain rfl : p.text = text := by
      simpa [hjson] using h
    obtain ⟨-, -, -, -, hwell, -⟩ := wellformed_of_parse hparse
    rw [print, parse_text_of_wellformed hwell]
    dsimp only
    rw [if_pos hjson]

/-- What is printed as JSON is one value and the end of its line. -/
theorem skipValue_print (hjson : args.count jsonFlag ≠ 0)
    (h : print args file source = .printed text) :
    Json.Reader.skipValue.run text.toList = .ok ((), ['\n']) := by
  unfold print at h
  split at h
  · cases h
  · rename_i p _
    rw [if_neg hjson] at h
    cases h
    have hends : Json.Reader.EndsNumber ['\n'] := Json.endsNumber_cons (by decide) []
    have hrun := Json.run_skipValue p.toJson 0 (List.forall_mem_nil _) hends
    rw [List.nil_append] at hrun
    rw [String.toList_append]
    exact hrun

theorem spells_function (name : String) :
    Spells [functionFlag, jsonFlag] ("--function=" ++ name).toList functionFlag (some name) := by
  have hflag : "--function=" = "--" ++ functionFlag.long ++ "=" := by decide
  rw [hflag]
  exact spells_long (by decide) (by decide) (by decide) name

/-- Names of functions, each behind its option. -/
theorem sorted_names (names : List String) :
    Sorted [functionFlag, jsonFlag] (names.map ("--function=" ++ ·))
      ⟨[], names.map (functionFlag, ·)⟩ := by
  induction names with
  | nil => exact .nil
  | cons name names ih => exact .attached (spells_function name) ih

/-- A program is printed that may call the functions with the names that stand behind its file. -/
theorem run_names {names : List String} {p : Program} (hfile : IsOperand file)
    (hread : readFile file = pure (.ok source))
    (hparse : parse source (FunctionTable.withNames names).registry = .ok p) :
    run readFile (file :: names.map ("--function=" ++ ·)) = pure (.printed p.text) := by
  have hnames : values ⟨[file], names.map (functionFlag, ·)⟩ functionFlag = names := by
    simp [values, List.filter_map, Function.comp_def]
  have hjson : count ⟨[file], names.map (functionFlag, ·)⟩ jsonFlag = 0 := by
    have hne : functionFlag ≠ jsonFlag := by decide
    simp [count, List.filter_map, Function.comp_def, hne]
  have hargs : read? [functionFlag, jsonFlag] (file :: names.map ("--function=" ++ ·)) =
      some ⟨[file], names.map (functionFlag, ·)⟩ := by
    refine read?_eq_some_iff.2 ⟨.operand hfile (sorted_names names), ?_⟩
    rw [List.forall_mem_cons, List.forall_mem_singleton]
    exact ⟨.inl rfl, .inr (hjson ▸ Nat.zero_le 1)⟩
  rw [run, hargs]
  dsimp only
  rw [hread, pure_bind]
  dsimp only
  rw [print, hnames, hparse]
  dsimp only
  rw [if_pos hjson]

end Format

/-! ## Messages -/

namespace Message

open Numeral

variable {fw : Firmware} {message : Botscript.Message} {file text : String} {b : UInt8}
  {operands : List String}

/-! ### Operands -/

theorem ofNat_eq_iff {n : Nat} (h : n ≤ 255) : UInt8.ofNat n = b ↔ n = b.toNat := by
  rw [← UInt8.toNat_inj, UInt8.toNat_ofNat', Nat.mod_eq_of_lt (by omega)]

theorem read_eq_ok_toNat {base : Nat} {digits : List Char} (hbase : base ≤ 16) :
    read base 255 digits = .ok b.toNat ↔ Signed true base digits b.toNat := by
  rw [read_eq_ok hbase, and_iff_right (Nat.le_of_lt_succ b.toNat_lt)]

/-- A byte is what is read, if there is something that is read. -/
theorem ofNat_eq_ok_iff {e : Except Fault Nat} {fault : Fault → InvalidByte}
    (hle : ∀ n, e = .ok n → n ≤ 255) :
    (match e with
      | .ok n => Except.ok (UInt8.ofNat n)
      | .error f => .error (fault f)) = .ok b ↔ e = .ok b.toNat := by
  cases e with
  | error f => simp
  | ok n => simp [ofNat_eq_iff (hle n rfl)]

theorem map_ofNat_eq_some_iff {e : Except Fault Nat} (hle : ∀ n, e = .ok n → n ≤ 255) :
    e.toOption.map UInt8.ofNat = some b ↔ e = .ok b.toNat := by
  cases e with
  | error f => simp [Except.toOption]
  | ok n => simp [Except.toOption, ofNat_eq_iff (hle n rfl)]

theorem not_signed_of_digitValue? {first : Char} {digits : List Char} {n : Nat}
    (hsign : first ≠ '+') (h : ∃ c ∈ first :: digits, digitValue? 10 c = none) :
    ¬ Signed true 10 (first :: digits) n := by
  obtain ⟨c, hc, hnone⟩ := h
  rintro (⟨-, hn⟩ | ⟨-, _, he, -⟩)
  · obtain ⟨v, hv⟩ := exists_number.1 ⟨n, hn⟩ c hc
    exact (digitValue?_eq_none (by decide)).1 hnone v hv
  · exact hsign (List.cons.inj he).1

/-- A payload byte is read from a decimal numeral, or a hexadecimal one behind `0x`. -/
theorem readByte_eq_ok : readByte text = .ok b ↔
    (∃ digits, text.toList = '0' :: 'x' :: digits ∧ Signed true 16 digits b.toNat) ∨
      Signed true 10 text.toList b.toNat := by
  unfold readByte
  split <;> rename_i hword
  · rename_i digits
    refine (ofNat_eq_ok_iff fun n h => ((read_eq_ok (by decide)).1 h).1).trans ?_
    rw [read_eq_ok_toNat (by decide), hword]
    have hten : ¬ Signed true 10 ('0' :: 'x' :: digits) b.toNat :=
      not_signed_of_digitValue? (by decide) ⟨'x', by simp, by decide⟩
    simp [hten]
  · refine (ofNat_eq_ok_iff fun n h => ((read_eq_ok (by decide)).1 h).1).trans ?_
    rw [read_eq_ok_toNat (by decide)]
    exact (or_iff_right fun ⟨digits, h, _⟩ => hword digits h).symm

/-- A device id is read from a decimal numeral, or zero behind a minus sign. -/
theorem readDevice?_eq_some : readDevice? text = some b ↔
    (∃ digits, text.toList = '-' :: digits ∧ digits ≠ [] ∧ Number 10 digits 0 ∧ b = 0) ∨
      Signed true 10 text.toList b.toNat := by
  unfold readDevice?
  split <;> rename_i hword
  · rename_i digit digits
    have hread (n : Nat) : readDigits 10 0 0 (digit :: digits) = .ok n ↔
        n ≤ 0 ∧ Number 10 (digit :: digits) n := by
      simp [readDigits_eq_ok (by decide : 10 ≤ 16) (Nat.le_refl 0)]
    have hten : ¬ Signed true 10 ('-' :: digit :: digits) b.toNat :=
      not_signed_of_digitValue? (by decide) ⟨'-', by simp, by decide⟩
    refine (map_ofNat_eq_some_iff fun n h => ?_).trans ?_
    · exact Nat.le_trans ((hread n).1 h).1 (Nat.zero_le _)
    · rw [hread, hword, or_iff_left hten]
      constructor
      · rintro ⟨hzero, hn⟩
        have hb := Nat.le_zero.1 hzero
        exact ⟨_, rfl, List.cons_ne_nil _ _, hb ▸ hn, UInt8.toNat_inj.1 hb⟩
      · rintro ⟨_, he, -, hn, rfl⟩
        obtain ⟨-, rfl⟩ := List.cons.inj he
        exact ⟨Nat.le_refl 0, hn⟩
  · refine (map_ofNat_eq_some_iff fun n h => ((read_eq_ok (by decide)).1 h).1).trans ?_
    rw [read_eq_ok_toNat (by decide), or_iff_right]
    rintro ⟨digits, he, hne, -⟩
    obtain ⟨digit, digits, rfl⟩ := List.exists_cons_of_ne_nil hne
    exact hword digit digits he

theorem mapM_eq_ok_iff {α β ε : Type} {f : α → Except ε β} {xs : List α} {ys : List β} :
    xs.mapM f = .ok ys ↔ List.Forall₂ (f · = .ok ·) xs ys := by
  induction xs generalizing ys with
  | nil =>
    rw [List.mapM_nil, List.forall₂_nil_left_iff]
    exact Except.ok.injEq [] ys ▸ eq_comm
  | cons x xs ih =>
    rw [List.mapM_cons, List.forall₂_cons_left_iff]
    constructor
    · intro h
      cases hx : f x with
      | error e =>
        rw [hx] at h
        cases h
      | ok y =>
        cases hxs : xs.mapM f with
        | error e =>
          rw [hx, hxs] at h
          cases h
        | ok ys =>
          rw [hx, hxs] at h
          cases h
          exact ⟨y, ys, rfl, ih.1 hxs, rfl⟩
    · rintro ⟨y, ys, hx, hxs, rfl⟩
      rw [hx, ih.2 hxs]
      rfl

/-- The operands ask for a message that is named by its opcode, its device and its bytes. -/
theorem readMessage?_eq_some : readMessage? operands = some message ↔
    ∃ device payload, operands = message.opcode.name :: device :: payload ∧
      readDevice? device = some message.device ∧
        List.Forall₂ (readByte · = .ok ·) payload message.payload := by
  constructor
  · intro h
    unfold readMessage? at h
    split at h
    · split at h
      · rename_i hopcode hdevice hpayload
        cases h
        obtain rfl := Opcode.name_of_ofName? hopcode
        exact ⟨_, _, rfl, hdevice, mapM_eq_ok_iff.1 hpayload⟩
      · cases h
    · cases h
  · rintro ⟨device, payload, rfl, hdevice, hpayload⟩
    rw [readMessage?, Opcode.ofName?_name, hdevice, mapM_eq_ok_iff.2 hpayload]

/-! ### Words -/

/-- The operands that ask for a message, with its numbers in decimal. -/
def operandsOf (message : Botscript.Message) : List String :=
  message.opcode.name :: toString message.device.toNat :: message.payload.map (toString ·.toNat)

theorem toList_toString (n : Nat) : (toString n).toList = Nat.toDigits 10 n := String.toList_ofList

theorem signed_toString (b : UInt8) : Signed true 10 (toString b.toNat).toList b.toNat := by
  rw [toList_toString]
  exact .inl ⟨Nat.toDigits_ne_nil, number_toDigits (by decide) (by decide) b.toNat⟩

theorem readMessage?_operandsOf (message : Botscript.Message) :
    readMessage? (operandsOf message) = some message := by
  refine readMessage?_eq_some.2 ⟨_, _, rfl, readDevice?_eq_some.2 (.inr (signed_toString _)), ?_⟩
  rw [List.forall₂_map_left_iff]
  exact List.forall₂_same.2 fun b _ => readByte_eq_ok.2 (.inr (signed_toString b))

theorem isOperand_toString (n : Nat) : IsOperand (toString n) := by
  refine isOperand_of_head?_ne ?_
  rw [toList_toString, ← List.append_nil (Nat.toDigits 10 n)]
  exact Json.Reader.head?_toDigits_ne_minus n []

theorem isOperand_operandsOf (message : Botscript.Message) :
    ∀ word ∈ operandsOf message, IsOperand word := by
  have hname (op : Opcode) : op.name.toList.head? ≠ some '-' := by cases op <;> decide
  rw [operandsOf, List.forall_mem_cons, List.forall_mem_cons]
  refine ⟨isOperand_of_head?_ne (hname _), isOperand_toString _, fun word hword => ?_⟩
  obtain ⟨b, -, rfl⟩ := List.mem_map.1 hword
  exact isOperand_toString _

/-- Every message can be asked for, in every firmware. -/
theorem run_operandsOf (message : Botscript.Message) (fw : Firmware)
    (hread : readFile file =
      pure (.ok (Json.list (Opcode.all.map fun op => .number (fw.byte op).toNat)).pretty)) :
    run readFile (("--table=" ++ file) :: operandsOf message) = pure (print fw message) := by
  have hflag : "--table=" = "--" ++ tableFlag.long ++ "=" := by decide
  have hsorted : Sorted [tableFlag] (("--table=" ++ file) :: operandsOf message)
      ⟨operandsOf message, [(tableFlag, file)]⟩ := by
    rw [hflag]
    exact .attached (spells_long (by decide) (by decide) (by decide) file)
      (sorted_operands (isOperand_operandsOf message))
  have hargs := read?_eq_some_iff.2 ⟨hsorted, by simp [count]⟩
  rw [run, hargs]
  dsimp only
  rw [readMessage?_operandsOf]
  simp only [values, List.filter_cons, decide_true, if_true, List.map_cons, hread, pure_bind,
    Firmware.ofProfile_bytes]

end Message

end Botscript.Cli
