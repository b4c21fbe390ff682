import Botscript.Proofs.Grammar.Acceptance

/-!
# Which tokens a step reads

A step that reads the words of a language moves past exactly one of them: the tokens between its two
cursors are a word (`ReadsAll.span_mem`), a word that is ahead is read to its end
(`ReadsAll.exists_run`), and the step ends behind no other word (`ReadsAll.ends_behind`). All need
the kind of the token behind the word, which must not go on with it.
-/

namespace Botscript.Parse

/-- A cursor that a run of the predictive parser comes by. -/
structure Cursor.Reached (input : Input) (c : Cursor) : Prop where
  tidy : c.Tidy input
  passed : ∀ i < c.pos, input.kind i ≠ .endOfInput

namespace Cursor

variable {input : Input} {c d : Cursor} {k : Token.Kind}

theorem Reached.note (h : c.Reached input) (k : Token.Kind) : (c.note k).Reached input :=
  ⟨h.tidy.note k, h.passed⟩

theorem Reached.noteAll (h : c.Reached input) (ks : List Token.Kind) :
    (c.noteAll ks).Reached input :=
  ⟨h.tidy.noteAll ks, by rw [noteAll_pos]; exact h.passed⟩

theorem Reached.next (h : c.Reached input) (hk : input.kind c.pos ≠ .endOfInput) :
    c.next.Reached input := by
  refine ⟨h.tidy.next hk, fun i hi => ?_⟩
  obtain hi | rfl := Nat.lt_succ_iff_lt_or_eq.1 hi
  · exact h.passed i hi
  · exact hk

/-- The calls seen so far do not matter. -/
theorem Reached.of_same (h : c.Reached input) (hp : d.pos = c.pos) (hf : d.frontier = c.frontier)
    (hm : d.memory = c.memory) : d.Reached input :=
  ⟨⟨hp ▸ h.tidy.bounded, by rw [hf, hp]; exact h.tidy.frontier,
    fun s hs => by rw [hm]; exact h.tidy.fresh s (hp ▸ hs)⟩, hp ▸ h.passed⟩

theorem reached_initial (input : Input) : Cursor.initial.Reached input where
  tidy := ⟨Nat.zero_le _, le_rfl, fun s _ => by simp [initial]⟩
  passed i hi := absurd hi (Nat.not_lt_zero i)

end Cursor

namespace Input

variable {input : Input} {i j k : Nat}

theorem span_append (hij : i ≤ j) (hjk : j ≤ k) :
    input.span i j ++ input.span j k = input.span i k := by
  have hlength : k - i = (j - i) + (k - j) := by omega
  simp only [span, Array.toList_extract, List.extract]
  rw [hlength, List.take_add, List.drop_drop, Nat.add_sub_of_le hij]

theorem length_span (hj : j ≤ input.tokens.size) :
    (input.span i j).length = j - i := by
  rw [span_eq_map hj, List.length_map, List.length_range]

/-- The tokens of a front of what is behind an index. -/
theorem span_of_drop {w v : List Token} (h : input.tokens.toList.drop i = w ++ v) :
    input.span i (i + w.length) = w := by
  rw [span, Array.toList_extract, List.extract, h, Nat.add_sub_cancel_left,
    List.take_left' rfl]

/-- What is behind an index goes on with the token of that index. -/
theorem token_of_drop {t : Token} {w v : List Token}
    (h : input.tokens.toList.drop i = w ++ t :: v) : input.token (i + w.length) = t := by
  have hget : input.tokens.toList[i + w.length]? = some t := by
    rw [← List.getElem?_drop, h, List.getElem?_append_right le_rfl, Nat.sub_self]
    rfl
  rw [Array.getElem?_toList] at hget
  unfold token
  rw [hget]

theorem drop_of_drop {w v : List Token} (h : input.tokens.toList.drop i = w ++ v) :
    input.tokens.toList.drop (i + w.length) = v := by
  rw [← List.drop_drop, h, List.drop_left' rfl]

/-- The tokens of an input and the one behind the last. -/
def stream (input : Input) : List Token := input.tokens.toList ++ [input.ending]

variable {n : Nat}

theorem length_stream (input : Input) : input.stream.length = input.tokens.size + 1 := by
  simp [stream]

theorem getElem?_stream (h : n ≤ input.tokens.size) : input.stream[n]? = some (input.token n) := by
  unfold stream token
  obtain h | rfl := h.lt_or_eq
  · rw [List.getElem?_append_left (by simpa using h), Array.getElem?_toList,
      Array.getElem?_eq_getElem h]
  · rw [List.getElem?_append_right (by simp)]
    simp

theorem drop_stream_eq_cons (h : n ≤ input.tokens.size) :
    input.stream.drop n = input.token n :: input.stream.drop (n + 1) := by
  obtain ⟨hlt, htoken⟩ := List.getElem?_eq_some_iff.1 (getElem?_stream h)
  rw [List.drop_eq_getElem_cons hlt, htoken]

theorem drop_stream {t : Token} {w v : List Token}
    (h : input.tokens.toList.drop i = w ++ t :: v) :
    input.stream.drop i = w ++ t :: (v ++ [input.ending]) := by
  have hlength := congrArg List.length h
  rw [List.length_drop, List.length_append, List.length_cons] at hlength
  rw [stream, List.drop_append_of_le_length (by omega), h, List.append_assoc, List.cons_append]

/-- The tokens from one index up to another, and what is behind them. -/
theorem span_append_drop (hij : i ≤ j) (hj : j ≤ input.tokens.size) :
    input.span i j ++ input.stream.drop j = input.stream.drop i := by
  have hspan : input.span i j = (input.stream.drop i).take (j - i) := by
    rw [span, Array.toList_extract, List.extract, stream,
      List.drop_append_of_le_length (by simpa using hij.trans hj),
      List.take_append_of_le_length (by simp; omega)]
  conv_lhs => rw [hspan, ← Nat.add_sub_of_le hij, ← List.drop_drop, Nat.add_sub_cancel_left]
  exact List.take_append_drop ..

theorem stream_eq (h : n ≤ input.tokens.size) :
    input.stream = input.span 0 n ++ input.stream.drop n := by
  rw [span_append_drop (Nat.zero_le _) h, List.drop_zero]

end Input

end Botscript.Parse

namespace Botscript.Grammar

open Computability Token Parse ParseM

variable {input : Input} {c d : Cursor} {L : Language Token} {ks : List Kind} {α : Type}
  {m : ParseM α} {a : α}

/-- A language with one word. -/
def only (w : List Token) : Language Token := {w}

theorem mem_only_mul {u w : List Token} : w ∈ only u * L ↔ ∃ v ∈ L, u ++ v = w := by
  rw [Language.mem_mul]
  exact ⟨fun ⟨_, hu, v, hv, he⟩ => ⟨v, hv, (show _ = u from hu) ▸ he⟩,
    fun ⟨v, hv, he⟩ => ⟨u, rfl, v, hv, he⟩⟩

theorem append_mem_only_mul {u v : List Token} : u ++ v ∈ only u * L ↔ v ∈ L := by
  rw [mem_only_mul]
  exact ⟨fun ⟨_, hv, he⟩ => List.append_cancel_left he ▸ hv, fun hv => ⟨v, hv, rfl⟩⟩

/-- The tokens of an input with a word of a language at a cursor. -/
def through (input : Input) (c : Cursor) (L : Language Token) : Aim :=
  ⟨only (input.span 0 c.pos) * L, false⟩

theorem leaves_through (h : c.Reached input) (L : Language Token) :
    (through input c L).Leaves input c L where
  tidy := h.tidy
  passed := h.passed
  rest _ _ := append_mem_only_mul
  viable hA := by cases hA

/-- A step with a reading for every aim that is not exact. -/
def ReadsAll (input : Input) (m : ParseM α) (L : Language Token) (ks : List Kind) : Prop :=
  ∀ A : Aim, A.exact = false → Reads A input m L ks

theorem mem_mul_only {w s : List Token} : w ++ s ∈ L * only s ↔ w ∈ L := by
  refine ⟨fun ⟨w', hw', s', hs', he⟩ => ?_, fun hw => Language.append_mem_mul hw rfl⟩
  obtain rfl : s' = s := hs'
  exact List.append_cancel_right he ▸ hw'

theorem avoids_only_cons {t : Token} {v : List Token} (ht : t.kind ∉ ks) :
    Avoids (only (t :: v)) ks := fun t' v' he => by
  obtain ⟨rfl, -⟩ := List.cons.inj (show t' :: v' = t :: v from he)
  exact ht

theorem mem_through (hc : c.Reached input) (K : Language Token) :
    input.stream ∈ (through input c K).words ↔ input.stream.drop c.pos ∈ K := by
  conv_lhs => rw [Input.stream_eq hc.tidy.bounded]
  exact append_mem_only_mul

/-- Where words of the language may have certain tokens behind them, the step ends in front of
these, and it fails if no word has. -/
theorem ReadsAll.ends (hm : ReadsAll input m L ks) (hc : c.Reached input) {v : List Token}
    (hv : Avoids (only v) ks) :
    m.Ends input c
      (fun _ d => c.pos ≤ d.pos ∧ d.Reached input ∧
        (input.stream.drop c.pos ∈ L * only v ↔ input.stream.drop d.pos = v))
      fun _ _ => input.stream.drop c.pos ∉ L * only v := by
  refine (hm (through input c (L * only v)) rfl c _ hv (by rintro ⟨⟩) (leaves_through hc _)).mono
    (fun _ d ⟨hle, hd⟩ => ⟨hle, ⟨hd.tidy, hd.passed⟩, ?_⟩) fun _ d hd hmem => ?_
  · have hbounded := hd.tidy.bounded
    rw [← mem_through hc]
    conv_lhs => rw [Input.stream_eq hbounded]
    refine hd.rest _ fun t ht _ => ?_
    rw [Input.drop_stream_eq_cons hbounded, List.head?_cons, Option.mem_some_iff] at ht
    rw [← ht, Input.kind]
  · have hbounded : d.pos ≤ input.tokens.size := Nat.le_of_not_lt fun hlt =>
      hd.passed _ hlt (Cursor.kind_of_size_le le_rfl)
    rw [← mem_through hc, Input.stream_eq hbounded, Input.drop_stream_eq_cons hbounded] at hmem
    exact hd.lost rfl _ hmem

/-- A step moves past a word of its language. -/
theorem ReadsAll.span_mem (hm : ReadsAll input m L ks) (hc : c.Reached input)
    (hrun : m.run input c = .ok a d) (hk : input.kind d.pos ∉ ks) :
    c.pos ≤ d.pos ∧ d.Reached input ∧ input.span c.pos d.pos ∈ L := by
  have havoids : Avoids (only (input.stream.drop d.pos)) ks := fun t v he => by
    have hdrop : t :: v = input.stream.drop d.pos := he
    have hlength := congrArg List.length hdrop
    rw [List.length_drop, Input.length_stream, List.length_cons] at hlength
    rw [Input.drop_stream_eq_cons (by omega)] at hdrop
    exact (List.cons.inj hdrop).1 ▸ hk
  obtain ⟨hle, hd, hiff⟩ := (hm.ends hc havoids).ok hrun
  have hmem := hiff.2 rfl
  rw [← Input.span_append_drop hle hd.tidy.bounded, mem_mul_only] at hmem
  exact ⟨hle, hd, hmem⟩

section Ahead

variable (hm : ReadsAll input m L ks) (hc : c.Reached input) {w v : List Token} {t : Token}
  (hdrop : input.stream.drop c.pos = w ++ t :: v) (ht : t.kind ∉ ks)

include hm hc hdrop ht

/-- A step ends behind a word that is ahead just if it is a word of its language. -/
theorem ReadsAll.ends_behind :
    m.Ends input c (fun _ d => d.Reached input ∧ (w ∈ L ↔ d.pos = c.pos + w.length))
      fun _ _ => w ∉ L := by
  have hends := hm.ends hc (avoids_only_cons (v := v) ht)
  rw [hdrop, mem_mul_only] at hends
  refine hends.mono (fun _ d ⟨_, hd, hiff⟩ => ⟨hd, hiff.trans ?_⟩) fun _ _ h => h
  constructor
  · intro hrest
    have hlength := congrArg List.length hdrop
    have hlength' := congrArg List.length hrest
    rw [List.length_drop, Input.length_stream, List.length_append] at hlength
    rw [List.length_drop, Input.length_stream] at hlength'
    have hpos : 0 < (t :: v).length := Nat.succ_pos _
    omega
  · intro hpos
    rw [hpos, ← List.drop_drop, hdrop, List.drop_left]

/-- A word that is ahead is read to its end. -/
theorem ReadsAll.exists_run (hw : w ∈ L) :
    ∃ a d, m.run input c = .ok a d ∧ d.pos = c.pos + w.length ∧ d.Reached input := by
  have hends := hm.ends_behind hc hdrop ht
  cases hrun : m.run input c with
  | error e d => exact absurd hw (hends.error hrun)
  | ok a d =>
    obtain ⟨hd, hiff⟩ := hends.ok hrun
    exact ⟨a, d, rfl, hiff.1 hw, hd⟩

end Ahead

/-! ## The productions -/

theorem fits_dialect {A : Aim} (hr : input.remembers = true) (hA : A.exact = false) :
    Fits A input (dialect input.registry) :=
  ⟨hr, rfl, fun _ => id, fun _ t ht => by simp_all [dialect], fun h => by simp [hA] at h⟩

/-- At each depth, the predictive parser reads the forms with as many levels, for every aim. -/
theorem inner_predictive {A : Aim} (hr : input.remembers = true) (hA : A.exact = false)
    (levels : Nat) : Inner A input (dialect input.registry) (Nested.predictive levels)
      (limited (dialect input.registry) levels) :=
  inner_limited (fits_dialect hr hA) hA levels

theorem limited_le_sentences {d : Dialect} : ∀ levels, limited d levels ≤ sentences d
  | 0 => bot_le
  | levels + 1 => (rules_le (limited_le_sentences levels)).trans (rules_sentences d).le

end Botscript.Grammar
