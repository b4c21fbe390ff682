import Botscript.Proofs.Json.Values
import Botscript.Robot.Profile

/-!
# What a profile gives

A profile that is an object gives the byte of each opcode that it names once, and of no other: other
members change nothing, whatever their values, and a member that is repeated or no byte is refused
(`ofProfile_object`). A profile that is a list gives the bytes of the first opcodes
(`ofProfile_list`). Either way, every firmware has a profile.
-/

namespace Botscript.Firmware

open Json Json.Reader

variable {fw fw' : Firmware} {seen : List Opcode} {op : Opcode} {key : String} {value : Json}
  {members : List (String × Json)} {level : Nat} {rest left blanks : List Char}

theorem ext_byte (h : ∀ op, fw.byte op = fw'.byte op) : fw = fw' := by
  obtain ⟨_, _, _, _, _, _, _, _⟩ := fw
  obtain ⟨_, _, _, _, _, _, _, _⟩ := fw'
  rw [mk.injEq]
  exact ⟨h .stop, h .echo, h .print, h .get, h .set, h .reset, h .done, h .add⟩

/-- What is done behind a profile: nothing but blanks may follow. -/
def ended (fw : Firmware) : Reader Firmware := do
  let _ ← takeWhile isBlank
  match ← peek with
  | none => return fw
  | some _ => throw .malformed

theorem run_ended_nil (fw : Firmware) : (ended fw).run [] = .ok (fw, []) := rfl

theorem run_readProfile_list (text : List Char) : readProfile.run ('[' :: text) =
    (readList (pure ()) standard Opcode.all >>= ended).run text := by
  rw [readProfile, run_bind_of_ok (run_ahead_cons (by decide)), if_pos rfl, run_bind_of_ok rfl]
  rfl

theorem run_readProfile_object (text : List Char) : readProfile.run ('\x7b' :: text) =
    (Prod.fst <$> items '\x7d' readMember (standard, []) >>= ended).run text := by
  rw [readProfile, run_bind_of_ok (run_ahead_cons (by decide)), if_neg (by decide), if_pos rfl,
    run_bind_of_ok rfl]
  rfl

theorem ofProfile_eq_ok_iff {text : String} :
    ofProfile text = .ok fw ↔ ∃ left, readProfile.run text.toList = .ok (fw, left) := by
  rw [ofProfile, StateT.run'_eq]
  cases readProfile.run text.toList with
  | error fault => simp
  | ok found =>
    obtain ⟨given, left⟩ := found
    simp

/-! ### Ends of objects and lists -/

theorem finished_iff :
    (.ok (fw, rest) : Except Fault (Firmware × List Char)) = .ok (fw', left) ↔
      fw' = fw ∧ left = rest := by
  rw [Except.ok.injEq, Prod.mk.injEq, eq_comm, @eq_comm _ rest]

theorem finished_seen_iff :
    (∃ seen', (.ok ((fw, seen), rest) : Except Fault ((Firmware × List Opcode) × List Char)) =
      .ok ((fw', seen'), left)) ↔ fw' = fw ∧ left = rest := by
  simp [eq_comm]

/-! ## Objects -/

theorem ne_name_of_ofName? (h : Opcode.ofName? key = none) (op : Opcode) : key ≠ op.name := by
  rintro rfl
  rw [Opcode.ofName?_name] at h
  cases h

theorem name_inj {other : Opcode} (h : op.name = other.name) : op = other := by
  have hop := Opcode.ofName?_name op
  rw [h, Opcode.ofName?_name] at hop
  exact (Option.some.inj hop).symm

/-- What members give, if some opcodes have had their bytes before: each opcode that is named is
named once, with its byte, and the other opcodes keep their bytes. -/
def Given (seen : List Opcode) (fw : Firmware) (members : List (String × Json)) (fw' : Firmware) :
    Prop :=
  ∀ op : Opcode, members.filter (·.1 = op.name) = [] ∧ fw'.byte op = fw.byte op ∨
    op ∉ seen ∧ members.filter (·.1 = op.name) = [(op.name, .number (fw'.byte op).toNat)]

theorem given_nil : Given seen fw [] fw' ↔ fw' = fw := by
  constructor
  · intro h
    refine ext_byte fun op => ?_
    obtain ⟨-, hop⟩ | ⟨-, hop⟩ := h op
    · exact hop
    · cases hop
  · rintro rfl op
    exact .inl ⟨rfl, rfl⟩

theorem given_other (h : Opcode.ofName? key = none) :
    Given seen fw ((key, value) :: members) fw' ↔ Given seen fw members fw' := by
  refine forall_congr' fun op => ?_
  rw [List.filter_cons_of_neg (by simpa using ne_name_of_ofName? h op)]

theorem given_opcode : Given seen fw ((op.name, value) :: members) fw' ↔
    op ∉ seen ∧ ∃ b : UInt8, value = .number b.toNat ∧
      Given (op :: seen) (fw.withByte op b) members fw' := by
  have hself : ((op.name, value) :: members).filter (·.1 = op.name) =
      (op.name, value) :: members.filter (·.1 = op.name) := List.filter_cons_of_pos (by simp)
  have hothers : ∀ other ≠ op, ((op.name, value) :: members).filter (·.1 = other.name) =
      members.filter (·.1 = other.name) := fun other hne =>
    List.filter_cons_of_neg (by simpa using fun he => hne (name_inj he).symm)
  constructor
  · intro h
    obtain ⟨hnone, -⟩ | ⟨hseen, hone⟩ := h op
    · rw [hself] at hnone
      cases hnone
    rw [hself] at hone
    obtain ⟨hvalue, hrest⟩ := List.cons.inj hone
    refine ⟨hseen, fw'.byte op, congrArg Prod.snd hvalue, fun other => ?_⟩
    rw [byte_withByte]
    by_cases hother : other = op
    · subst hother
      exact .inl ⟨hrest, (if_pos rfl).symm⟩
    · rw [if_neg hother, ← hothers other hother, List.mem_cons, not_or]
      exact (h other).imp_right fun ⟨hseen, hone⟩ => ⟨⟨hother, hseen⟩, hone⟩
  · rintro ⟨hseen, b, rfl, h⟩ other
    have hlater := h other
    rw [byte_withByte] at hlater
    by_cases hother : other = op
    · subst hother
      rw [if_pos rfl] at hlater
      obtain ⟨hnone, hb⟩ | ⟨hmem, -⟩ := hlater
      · rw [hself, hnone, hb]
        exact .inr ⟨hseen, rfl⟩
      · exact absurd List.mem_cons_self hmem
    · rw [if_neg hother, List.mem_cons, not_or] at hlater
      rw [hothers other hother]
      exact hlater.imp_right fun ⟨hmem, hone⟩ => ⟨hmem.2, hone⟩

theorem run_readMember_other (h : Opcode.ofName? key = none) (hblanks : ∀ c ∈ blanks, isBlank c)
    (hrest : EndsNumber rest) :
    (readMember (fw, seen)).run (blanks ++ ((quote key).toList ++ ':' :: ' ' ::
      ((value.prettyAt level).toList ++ rest))) = .ok ((fw, seen), rest) := by
  have hspace : ∀ c ∈ [' '], isBlank c := List.forall_mem_singleton.2 rfl
  have hskip := run_skipValue value level hspace hrest
  rw [List.singleton_append] at hskip
  rw [readMember, run_bind_of_ok (run_ahead_quote hblanks key _), if_neg (by decide),
    run_bind_of_ok (run_string key _), String.ofList_toList, h]
  dsimp only
  rw [run_bind_of_ok (run_mark_cons (by decide)), run_bind_of_ok hskip]
  rfl

theorem run_readMember_opcode {state : Firmware × List Opcode} (hblanks : ∀ c ∈ blanks, isBlank c)
    (hrest : EndsNumber rest) :
    (readMember (fw, seen)).run (blanks ++ ((quote op.name).toList ++ ':' :: ' ' ::
      ((value.prettyAt level).toList ++ rest))) = .ok (state, left) ↔
    op ∉ seen ∧ ∃ b : UInt8, value = .number b.toNat ∧ state = (fw.withByte op b, op :: seen) ∧
      left = rest := by
  have hspace : ∀ c ∈ [' '], isBlank c := List.forall_mem_singleton.2 rfl
  rw [readMember, run_bind_of_ok (run_ahead_quote hblanks op.name _), if_neg (by decide),
    run_bind_of_ok (run_string op.name _), String.ofList_toList, Opcode.ofName?_name]
  dsimp only
  by_cases hseen : op ∈ seen
  · rw [if_pos hseen]
    refine iff_of_false (fun h => ?_) fun h => h.1 hseen
    cases h
  · rw [if_neg hseen, run_bind_of_ok (run_mark_cons (by decide)), run_bind_iff]
    constructor
    · rintro ⟨b, mid, hbyte, h⟩
      obtain ⟨rfl, rfl⟩ := (run_byteValue_iff hspace hrest).1 hbyte
      cases h
      exact ⟨hseen, b, rfl, rfl, rfl⟩
    · rintro ⟨-, b, rfl, rfl, rfl⟩
      exact ⟨b, left, (run_byteValue_iff hspace hrest).2 ⟨rfl, rfl⟩, rfl⟩

/-- A member is read, and then what stands behind it. -/
theorem run_member_iff (key : String) (value : Json) (level : Nat)
    {next : Firmware × List Opcode → Reader (Firmware × List Opcode)} {more : List Char}
    (hblanks : ∀ c ∈ blanks, isBlank c) (hmore : EndsNumber more)
    (hnext : ∀ fw seen, (∃ seen', (next (fw, seen)).run more = .ok ((fw', seen'), left)) ↔
      Given seen fw members fw' ∧ left = rest) :
    (∃ seen', (readMember (fw, seen) >>= next).run (blanks ++ ((quote key).toList ++ ':' :: ' ' ::
      ((value.prettyAt level).toList ++ more))) = .ok ((fw', seen'), left)) ↔
        Given seen fw ((key, value) :: members) fw' ∧ left = rest := by
  cases hkey : Opcode.ofName? key with
  | none =>
    rw [run_bind_of_ok (run_readMember_other hkey hblanks hmore), hnext, given_other hkey]
  | some op =>
    obtain rfl := Opcode.name_of_ofName? hkey
    simp only [run_bind_iff, run_readMember_opcode hblanks hmore, given_opcode]
    constructor
    · rintro ⟨seen', _, _, ⟨hseen, b, rfl, rfl, rfl⟩, hrun⟩
      obtain ⟨hgiven, rfl⟩ := (hnext _ _).1 ⟨seen', hrun⟩
      exact ⟨⟨hseen, b, rfl, hgiven⟩, rfl⟩
    · rintro ⟨⟨hseen, b, rfl, hgiven⟩, rfl⟩
      obtain ⟨seen', hrun⟩ := (hnext _ _).2 ⟨hgiven, rfl⟩
      exact ⟨seen', _, _, ⟨hseen, b, rfl, rfl, rfl⟩, hrun⟩

theorem endsNumber_members (level outerLevel : Nat) (members : List (String × Json))
    (rest : List Char) : EndsNumber ((prettyMembers level members).toList ++
      ((newLine outerLevel).toList ++ '\x7d' :: rest)) := by
  obtain ⟨_, _, hclosed⟩ := closed_prettyMembers members level outerLevel
  simpa using (hclosed 0 [] rest).1

/-- The members behind the first are read if and only if they give something. -/
theorem run_itemsUpTo_iff {bound : Nat} (hbound : members.length < bound) (outerLevel : Nat) :
    (∃ seen', (itemsUpTo '\x7d' readMember bound (fw, seen)).run
      ((prettyMembers level members).toList ++ ((newLine outerLevel).toList ++ '\x7d' :: rest)) =
        .ok ((fw', seen'), left)) ↔ Given seen fw members fw' ∧ left = rest := by
  induction members generalizing fw seen bound with
  | nil =>
    obtain ⟨bound, rfl⟩ := Nat.exists_eq_succ_of_ne_zero (Nat.ne_of_gt hbound)
    rw [toList_members_nil, List.nil_append, itemsUpTo,
      run_bind_of_ok (run_ahead (isBlank_newLine outerLevel) (by decide)), if_pos rfl,
      run_bind_of_ok rfl, given_nil]
    exact finished_seen_iff
  | cons member members ih =>
    obtain ⟨key, value⟩ := member
    obtain ⟨bound, rfl⟩ :=
      Nat.exists_eq_succ_of_ne_zero (Nat.ne_of_gt (Nat.zero_lt_of_lt hbound))
    rw [toList_members_cons, List.cons_append, itemsUpTo,
      run_bind_of_ok (run_ahead_cons (by decide)), if_neg (by decide), if_pos rfl,
      run_bind_of_ok rfl]
    simp only [List.tail_cons, List.append_assoc, List.cons_append]
    exact run_member_iff key value level (isBlank_newLine level)
      (endsNumber_members level outerLevel members rest)
      fun fw seen => ih (Nat.lt_of_succ_lt_succ hbound)

theorem length_le_members (level : Nat) (members : List (String × Json)) :
    members.length ≤ (prettyMembers level members).toList.length := by
  induction members with
  | nil => exact Nat.zero_le _
  | cons member members ih =>
    rw [toList_members_cons]
    simp only [List.length_cons, List.length_append]
    omega

/-- The members of an object are read if and only if they give something. -/
theorem run_items_iff {text : List Char}
    (htext : ((object members).prettyAt level).toList = '\x7b' :: text) :
    (∃ seen', (items '\x7d' readMember (fw, seen)).run (text ++ rest) =
      .ok ((fw', seen'), left)) ↔ Given seen fw members fw' ∧ left = rest := by
  match members with
  | [] =>
    obtain ⟨-, rfl⟩ := List.cons.inj ((toList_object_nil level).symm.trans htext)
    have hitems : (items '\x7d' readMember (fw, seen)).run ('\x7d' :: rest) =
        .ok ((fw, seen), rest) := by
      rw [items, run_bind_of_ok (run_ahead_cons (by decide)), if_pos rfl]
      rfl
    rw [List.singleton_append, hitems, given_nil]
    exact finished_seen_iff
  | (key, value) :: members =>
    obtain ⟨-, rfl⟩ :=
      List.cons.inj ((toList_object_cons level key value members).symm.trans htext)
    have hbound : members.length < ((prettyMembers (level + 1) members).toList ++
        ((newLine level).toList ++ '\x7d' :: rest)).length + 1 := by
      have hle := length_le_members (level + 1) members
      rw [List.length_append]
      omega
    simp only [List.append_assoc, List.cons_append, List.nil_append]
    rw [items, run_bind_of_ok (run_ahead_quote (isBlank_newLine _) key _), if_neg (by decide),
      ← List.nil_append ((quote key).toList ++ _)]
    exact run_member_iff key value (level + 1) (List.forall_mem_nil _) (endsNumber_members _ _ _ _)
      fun fw seen => run_itemsUpTo_iff hbound level

theorem exists_toList_object (members : List (String × Json)) (level : Nat) :
    ∃ text, ((object members).prettyAt level).toList = '\x7b' :: text := by
  cases members with
  | nil => exact ⟨_, toList_object_nil level⟩
  | cons member members => exact ⟨_, toList_object_cons level member.1 member.2 members⟩

/-- A profile that is an object is read if and only if each opcode that is named in it is named
once, with a byte; the opcodes that are not named keep their bytes. -/
theorem ofProfile_object :
    ofProfile (object members).pretty = .ok fw ↔ ∀ op : Opcode,
      members.filter (·.1 = op.name) = [] ∧ fw.byte op = standard.byte op ∨
        members.filter (·.1 = op.name) = [(op.name, .number (fw.byte op).toNat)] := by
  have hgiven : Given [] standard members fw ↔ _ :=
    forall_congr' fun op => or_congr_right (and_iff_right List.not_mem_nil)
  obtain ⟨text, htext⟩ := exists_toList_object members 0
  rw [← hgiven, ofProfile_eq_ok_iff, pretty, htext, run_readProfile_object, ← List.append_nil text]
  simp only [run_bind_iff, run_map_iff]
  constructor
  · rintro ⟨left, _, mid, ⟨⟨fw', seen'⟩, hitems, rfl⟩, hended⟩
    obtain ⟨h, rfl⟩ := (run_items_iff htext).1 ⟨seen', hitems⟩
    cases hended
    exact h
  · intro h
    obtain ⟨seen', hitems⟩ := (run_items_iff htext).2 ⟨h, rfl⟩
    exact ⟨[], fw, [], ⟨_, hitems, rfl⟩, run_ended_nil fw⟩

/-! ## Lists -/

/-- What items give to opcodes in order: each its byte, as long as there are items. -/
def Listed (fw : Firmware) (ops : List Opcode) (items : List Json) (fw' : Firmware) : Prop :=
  items <+: ops.map (fun op => .number (fw'.byte op).toNat) ∧
    ∀ op ∉ ops.take items.length, fw'.byte op = fw.byte op

variable {ops : List Opcode} {values : List Json}

theorem listed_nil : Listed fw ops [] fw' ↔ fw' = fw := by
  constructor
  · rintro ⟨-, h⟩
    exact ext_byte fun op => h op List.not_mem_nil
  · rintro rfl
    exact ⟨List.nil_prefix, fun _ _ => rfl⟩

theorem listed_cons (hop : op ∉ ops) : Listed fw (op :: ops) (value :: values) fw' ↔
    ∃ b : UInt8, value = .number b.toNat ∧ Listed (fw.withByte op b) ops values fw' := by
  unfold Listed
  rw [List.map_cons, List.cons_prefix_cons, List.length_cons, List.take_succ_cons]
  simp only [byte_withByte, List.mem_cons, not_or]
  constructor
  · rintro ⟨⟨rfl, hvalues⟩, hkept⟩
    refine ⟨_, rfl, hvalues, fun other hother => ?_⟩
    split <;> rename_i he
    · rw [he]
    · exact hkept other ⟨he, hother⟩
  · rintro ⟨b, rfl, hvalues, hkept⟩
    have hb := hkept op fun hmem => hop (List.mem_of_mem_take hmem)
    rw [if_pos rfl] at hb
    refine ⟨⟨by rw [hb], hvalues⟩, fun other hother => ?_⟩
    rw [hkept other hother.2, if_neg hother.1]

theorem endsNumber_items (level outerLevel : Nat) (values : List Json) (rest : List Char) :
    EndsNumber ((prettyItems level values).toList ++
      ((newLine outerLevel).toList ++ ']' :: rest)) := by
  obtain ⟨_, _, hclosed⟩ := closed_prettyItems values level outerLevel
  simpa using (hclosed 0 [] rest).1

/-- A byte is read, and then what stands behind it. -/
theorem run_item_iff (value : Json) (level : Nat) {next : UInt8 → Reader Firmware}
    {more : List Char} (hop : op ∉ ops) (hblanks : ∀ c ∈ blanks, isBlank c)
    (hmore : EndsNumber more)
    (hnext : ∀ b, (next b).run more = .ok (fw', left) ↔
      Listed (fw.withByte op b) ops values fw' ∧ left = rest) :
    (byteValue >>= next).run (blanks ++ ((value.prettyAt level).toList ++ more)) =
      .ok (fw', left) ↔ Listed fw (op :: ops) (value :: values) fw' ∧ left = rest := by
  simp only [run_bind_iff, run_byteValue_iff hblanks hmore, listed_cons hop]
  constructor
  · rintro ⟨b, _, ⟨rfl, rfl⟩, hrun⟩
    obtain ⟨hlisted, rfl⟩ := (hnext b).1 hrun
    exact ⟨⟨b, rfl, hlisted⟩, rfl⟩
  · rintro ⟨⟨b, rfl, hlisted⟩, rfl⟩
    exact ⟨b, more, ⟨rfl, rfl⟩, (hnext b).2 ⟨hlisted, rfl⟩⟩

/-- The items behind the first are read if and only if they give bytes. -/
theorem run_readList_iff (hops : ops.Nodup) (level outerLevel : Nat) :
    (readList (mark ',') fw ops).run ((prettyItems level values).toList ++
      ((newLine outerLevel).toList ++ ']' :: rest)) = .ok (fw', left) ↔
        Listed fw ops values fw' ∧ left = rest := by
  induction ops generalizing fw values with
  | nil =>
    cases values with
    | nil =>
      rw [toList_items_nil, List.nil_append, readList,
        run_bind_of_ok (run_mark (isBlank_newLine outerLevel) (by decide)), listed_nil]
      exact finished_iff
    | cons value values =>
      rw [toList_items_cons, List.cons_append, readList, mark, run_bind_iff]
      refine iff_of_false ?_ fun h => List.cons_ne_nil _ _ (List.prefix_nil.1 h.1.1)
      rintro ⟨_, _, hmark, -⟩
      rw [run_bind_of_ok (run_ahead_cons (by decide)), if_neg (by decide)] at hmark
      cases hmark
  | cons op ops ih =>
    obtain ⟨hop, hops⟩ := List.nodup_cons.1 hops
    cases values with
    | nil =>
      rw [toList_items_nil, List.nil_append, readList,
        run_bind_of_ok (run_ahead (isBlank_newLine outerLevel) (by decide)), if_pos rfl, listed_nil]
      exact finished_iff
    | cons value values =>
      rw [toList_items_cons, List.cons_append, readList,
        run_bind_of_ok (run_ahead_cons (by decide)), if_neg (by decide),
        run_bind_of_ok (run_mark_cons (by decide))]
      simp only [List.append_assoc]
      exact run_item_iff value level hop (isBlank_newLine level)
        (endsNumber_items level outerLevel values rest) fun b => ih hops

/-- The items of a list are read if and only if they give bytes. -/
theorem run_list_iff {text : List Char}
    (htext : ((list values).prettyAt level).toList = '[' :: text) (hops : (op :: ops).Nodup) :
    (readList (pure ()) fw (op :: ops)).run (text ++ rest) = .ok (fw', left) ↔
      Listed fw (op :: ops) values fw' ∧ left = rest := by
  obtain ⟨hop, hops⟩ := List.nodup_cons.1 hops
  match values with
  | [] =>
    obtain ⟨-, rfl⟩ := List.cons.inj ((toList_list_nil level).symm.trans htext)
    rw [List.singleton_append, readList, run_bind_of_ok (run_ahead_cons (by decide)), if_pos rfl,
      listed_nil]
    exact finished_iff
  | value :: values =>
    obtain ⟨-, rfl⟩ := List.cons.inj ((toList_list_cons level value values).symm.trans htext)
    obtain ⟨c, front, hfront, hc⟩ := exists_front value (level + 1)
    have hclose : c ≠ ']' := fun he => hc.close (he ▸ List.mem_cons_self)
    simp only [List.append_assoc, List.cons_append, List.nil_append]
    have hahead : ahead.run ((newLine (level + 1)).toList ++
        ((value.prettyAt (level + 1)).toList ++ ((prettyItems (level + 1) values).toList ++
          ((newLine level).toList ++ ']' :: rest)))) =
        .ok (c, [] ++ ((value.prettyAt (level + 1)).toList ++ ((prettyItems (level + 1)
          values).toList ++ ((newLine level).toList ++ ']' :: rest)))) := by
      rw [hfront]
      exact run_ahead (isBlank_newLine _) hc.blank
    rw [readList, run_bind_of_ok hahead, if_neg hclose]
    exact run_item_iff value (level + 1) hop (List.forall_mem_nil _) (endsNumber_items _ _ values rest)
      fun b => run_readList_iff hops _ _

theorem exists_toList_list (values : List Json) (level : Nat) :
    ∃ text, ((list values).prettyAt level).toList = '[' :: text := by
  cases values with
  | nil => exact ⟨_, toList_list_nil level⟩
  | cons value values => exact ⟨_, toList_list_cons level value values⟩

/-- A profile that is a list is read if and only if its items are the bytes of the first opcodes;
the other opcodes keep their bytes. -/
theorem ofProfile_list :
    ofProfile (list values).pretty = .ok fw ↔
      values <+: Opcode.all.map (fun op => .number (fw.byte op).toNat) ∧
        ∀ op ∉ Opcode.all.take values.length, fw.byte op = standard.byte op := by
  have hops : Opcode.all.Nodup := by decide
  obtain ⟨text, htext⟩ := exists_toList_list values 0
  rw [ofProfile_eq_ok_iff, pretty, htext, run_readProfile_list, ← List.append_nil text]
  simp only [run_bind_iff]
  constructor
  · rintro ⟨left, fw', mid, hlist, hended⟩
    obtain ⟨h, rfl⟩ := (run_list_iff htext hops).1 hlist
    cases hended
    exact h
  · intro h
    exact ⟨[], fw, [], (run_list_iff htext hops).2 ⟨h, rfl⟩, run_ended_nil fw⟩

/-- Every firmware has a profile. -/
theorem ofProfile_bytes (fw : Firmware) :
    ofProfile (list (Opcode.all.map fun op => .number (fw.byte op).toNat)).pretty = .ok fw :=
  ofProfile_list.2 ⟨List.prefix_rfl, fun op h => absurd op.mem_all h⟩

end Botscript.Firmware
