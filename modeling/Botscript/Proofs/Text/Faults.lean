import Botscript.Proofs.Text.Escapes

/-!
# Faults in escapes

What `unescape` reports is the first escape that is none (`unescape_fault`): a part of the body,
behind a front that is decoded, and a fault by itself. What comes before a backslash is decoded the
same whatever follows the backslash (`unescape_append`), since no escape goes on past one
(`Reads.exists_front`).
-/

namespace Botscript

namespace Escape

variable {signs : Bool} {c : Char} {text rest body bad before out : List Char}

theorem noOctal_backslash (text : List Char) : NoOctal ('\\' :: text) := by
  intro c rest he v hv
  obtain ⟨rfl, -⟩ := List.cons.inj he
  exact (Numeral.digitValue?_eq_none (show 8 ≤ 16 by decide)).1 (by decide) v hv

theorem NoOctal.of_append (h : NoOctal (before ++ text)) : NoOctal before :=
  fun c rest he => h c (rest ++ text) (he ▸ rfl)

theorem NoOctal.append (h : NoOctal before) (ht : NoOctal text) : NoOctal (before ++ text) := by
  cases before with
  | nil => exact ht
  | cons c rest =>
    intro d tail he
    obtain ⟨rfl, -⟩ := List.cons.inj he
    exact h c rest rfl

/-- An escape is a front of the text. Of what follows it matters only that no octal digit does. -/
theorem Reads.exists_front (h : Reads signs text c rest) : ∃ front, text = front ++ rest ∧
    ∀ rest', (NoOctal rest → NoOctal rest') → Reads signs (front ++ rest') c rest' := by
  cases h with
  | named h => exact ⟨[_], rfl, fun _ _ => .named h⟩
  | octal hn hlength hmax =>
    exact ⟨_ :: _, rfl, fun _ hrest => .octal hn hlength fun hlt => hrest (hmax hlt)⟩
  | coded h hlength hn => exact ⟨_ :: _, rfl, fun _ _ => .coded h hlength hn⟩

/-- What is reported is a front of the text, and would be reported if nothing followed it. -/
theorem exists_of_read_error (h : read text = .error bad) :
    ∃ after, text = bad ++ after ∧ read bad = .error bad := by
  cases text with
  | nil =>
    cases h
    exact ⟨[], rfl, rfl⟩
  | cons selector text =>
    rw [read] at h
    split at h
    next => cases h
    next width hs hw =>
      split at h
      next => cases h
      next hc =>
        cases h
        refine ⟨text.drop width, by rw [List.cons_append, List.take_append_drop], ?_⟩
        rw [read, hs, hw]
        simp only [List.take_take, Nat.min_self, hc]
    next hs hw =>
      split at h
      next => cases h
      next hd =>
        cases h
        refine ⟨text, rfl, ?_⟩
        rw [read, hs, hw]
        exact if_neg hd

theorem map_cons_eq_error {result : Except (List Char) (List Char)} :
    (c :: ·) <$> result = .error bad ↔ result = .error bad := by
  cases result <;> simp [Functor.map, Except.map]

/-- A fault lies behind a front that is decoded, and is a fault by itself. -/
theorem exists_of_unescape_error (h : unescape body = .error bad) :
    ∃ before out after, body = before ++ (bad ++ after) ∧ Spelled true before out ∧
      ∃ letters, bad = '\\' :: letters ∧ read letters = .error letters := by
  -- on the length: behind an escape the body goes on more than one character further
  induction hsize : body.length using Nat.strong_induction_on generalizing body with
  | _ size ih =>
    subst hsize
    cases body with
    | nil => cases h
    | cons c rest =>
      by_cases hc : c = '\\'
      · subst hc
        rw [unescape_backslash] at h
        split at h
        next decoded length hread =>
          have hreads := reads_of_read hread
          obtain ⟨before, out, after, hrest, hbefore, hbad⟩ :=
            ih _ (hreads.length_lt.trans (Nat.lt_succ_self _)) (map_cons_eq_error.1 h) rfl
          obtain ⟨front, hfront, hany⟩ := hreads.exists_front
          refine ⟨'\\' :: (front ++ before), _, after, ?_, .escape (hany before ?_) hbefore, hbad⟩
          · rw [hfront, hrest, List.cons_append, List.append_assoc]
          · rw [hrest]
            exact NoOctal.of_append
        next letters hread =>
          cases h
          obtain ⟨after, rfl, hbad⟩ := exists_of_read_error hread
          exact ⟨[], [], after, rfl, .nil, letters, rfl, hbad⟩
      · rw [unescape_cons_of_ne hc, map_cons_eq_error] at h
        obtain ⟨before, out, after, rfl, hbefore, hbad⟩ := ih _ (Nat.lt_succ_self _) h rfl
        exact ⟨c :: before, _, after, rfl, .plain hc hbefore, hbad⟩

/-- What comes before a backslash is decoded, and then what begins there. -/
theorem unescape_append (h : Spelled true before out) (text : List Char) :
    unescape (before ++ '\\' :: text) = (out ++ ·) <$> unescape ('\\' :: text) := by
  have hnil : unescape ('\\' :: text) = ([] ++ ·) <$> unescape ('\\' :: text) := by
    simp only [List.nil_append, id_map']
  induction h with
  | nil => exact hnil
  | plain hc _ ih =>
    rw [List.cons_append, unescape_cons_of_ne hc, ih, ← comp_map]
    rfl
  | @escape escape rest out c hc _ ih =>
    obtain ⟨front, rfl, hany⟩ := hc.exists_front
    obtain ⟨length, hread, hdrop⟩ :=
      (hany (rest ++ '\\' :: text) fun hrest => hrest.append (noOctal_backslash text)).read
    rw [List.cons_append, List.append_assoc, unescape_backslash, hread]
    simp only [hdrop, ih]
    rw [← comp_map]
    rfl

/-- A body that is not decoded has a front that is, and behind it what is reported, which begins
with a backslash and is reported for itself as well. Behind a front that is decoded, what begins
with a backslash is decoded or reported as it is by itself. -/
theorem unescape_fault :
    (∀ body bad, unescape body = .error bad → ∃ before out after,
      body = before ++ (bad ++ after) ∧ unescape before = .ok out ∧ bad.head? = some '\\' ∧
        unescape bad = .error bad) ∧
    ∀ before out rest, unescape before = .ok out → rest.head? = some '\\' →
      (∀ out', unescape rest = .ok out' → unescape (before ++ rest) = .ok (out ++ out')) ∧
        ∀ bad, unescape rest = .error bad → unescape (before ++ rest) = .error bad := by
  constructor
  · intro body bad h
    obtain ⟨before, out, after, hbody, hbefore, letters, rfl, hread⟩ := exists_of_unescape_error h
    refine ⟨before, out, after, hbody, unescape_eq_ok.2 hbefore, rfl, ?_⟩
    rw [unescape_backslash, hread]
  · intro before out rest h hrest
    obtain ⟨text, rfl⟩ := List.head?_eq_some_iff.1 hrest
    rw [unescape_append (unescape_eq_ok.1 h)]
    exact ⟨fun out' hout => by rw [hout]; rfl, fun bad hbad => by rw [hbad]; rfl⟩

/-- An octal escape of two digits, and behind it a surrogate. -/
theorem unescape_fault_surrogate :
    unescape "\\7\\ud800!".toList = .error "\\ud800".toList ∧
    (∃ before out after, "\\7\\ud800!".toList = before ++ ("\\ud800".toList ++ after) ∧
      unescape before = .ok out ∧ "\\ud800".toList.head? = some '\\' ∧
        unescape "\\ud800".toList = .error "\\ud800".toList) ∧
    unescape "\\7".toList = .ok ['\x07'] ∧ "\\1n\\q".toList.head? = some '\\' ∧
    unescape ("\\7".toList ++ "\\1n\\q".toList) = .error "\\q".toList := by
  have hbad : unescape "\\7\\ud800!".toList = .error "\\ud800".toList := by decide
  have hbefore : unescape "\\7".toList = .ok ['\x07'] := by decide
  have hrest : "\\1n\\q".toList.head? = some '\\' := by decide
  exact ⟨hbad, unescape_fault.1 _ _ hbad, hbefore, hrest,
    (unescape_fault.2 _ _ _ hbefore hrest).2 _ (by decide)⟩

end Escape

end Botscript
