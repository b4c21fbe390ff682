import Botscript.Proofs.Meaning.Calls
import Botscript.Proofs.Print.Kept

/-!
# Texts of trees in a source

A text `Shows` a property of some tokens if it spells these, and the tokens have the property
wherever the text stands in a source. What two texts show, one behind the other shows
(`Shows.append`). The lines of commands are to show that their tokens denote these (`Denoted`).
-/

namespace Botscript

open Computability Token Parse Grammar

/-- A text spells some tokens, and where it is ahead in an input, these have a property. -/
structure Shows (input : Input) (F : List Char → Prop) (text : String) (w : List Token)
    (P : List Token → Prop) : Prop where
  spells : Spells F text.toList w
  holds : ∀ i after, F after → input.Ahead i (text.toList ++ after) →
    P (input.span i (i + w.length))

/-- What follows a text begins with a delimiter. -/
def Bounded (text : String) : Prop := ∀ after, Delimited (text.toList ++ after)

variable {input : Input} {F G : List Char → Prop} {a b text source : String}
  {u v w : List Token} {P Q : List Token → Prop} {i : Nat} {after : List Char}

theorem bounded_append (h : Bounded a) (b : String) : Bounded (a ++ b) := fun after => by
  rw [String.toList_append, List.append_assoc]
  exact h _

theorem bounded_of_delimiter {c : Char} {rest : List Char} (h : a.toList = c :: rest)
    (hc : c ∈ delimiters) : Bounded a := fun after => by
  rw [h, List.cons_append]
  exact delimited_cons.2 hc

theorem Bounded.delimited (h : Bounded a) : Delimited a.toList := by simpa using h []

theorem spells_append (ha : Spells Anything a.toList u) (hb : Spells F b.toList v) :
    Spells F (a ++ b).toList (u ++ v) := by
  rw [String.toList_append]
  exact ha.append_anything hb

theorem spells_append_bounded (ha : Spells Delimited a.toList u) (hb : Spells F b.toList v)
    (hd : Bounded b) : Spells F (a ++ b).toList (u ++ v) := by
  rw [String.toList_append]
  exact ha.append hb hd.delimited fun after _ => hd after

namespace Shows

theorem imp (h : Shows input F text w P) (hPQ : ∀ x, P x → Q x) : Shows input F text w Q :=
  ⟨h.spells, fun i after hF ha => hPQ _ (h.holds i after hF ha)⟩

theorem mono (h : Shows input F text w P) (hG : ∀ after, G after → F after) :
    Shows input G text w P :=
  ⟨h.spells.mono hG, fun i after hafter => h.holds i after (hG after hafter)⟩

theorem congr {text' : String} {w' : List Token} (h : Shows input F text w P) (ht : text = text')
    (hw : w = w') : Shows input F text' w' P := ht ▸ hw ▸ h

/-- One text behind another. -/
theorem append (ha : Shows input F a u P) (hb : Shows input G b v Q) (hF : F b.toList)
    (hG : ∀ after, G after → F (b.toList ++ after)) :
    Shows input G (a ++ b) (u ++ v) fun x => ∃ y z, x = y ++ z ∧ P y ∧ Q z where
  spells := by
    rw [String.toList_append]
    exact ha.spells.append hb.spells hF hG
  holds i after hafter h := by
    rw [String.toList_append, List.append_assoc] at h
    have hstep := h.step ha.spells (hG after hafter)
    refine ⟨_, _, ?_, ha.holds i _ (hG after hafter) h, hb.holds _ after hafter hstep⟩
    rw [List.length_append, ← Nat.add_assoc,
      Input.span_append (Nat.le_add_right _ _) (Nat.le_add_right _ _)]

/-- A text behind one that does not mind what follows it. -/
theorem append_anything (ha : Shows input Anything a u P) (hb : Shows input F b v Q) :
    Shows input F (a ++ b) (u ++ v) fun x => ∃ y z, x = y ++ z ∧ P y ∧ Q z :=
  ha.append hb trivial fun _ _ => trivial

/-- A text with a delimiter in front of it behind one that needs one. -/
theorem append_bounded (ha : Shows input Delimited a u P) (hb : Shows input F b v Q)
    (hd : Bounded b) : Shows input F (a ++ b) (u ++ v) fun x => ∃ y z, x = y ++ z ∧ P y ∧ Q z :=
  ha.append hb hd.delimited fun after _ => hd after

end Shows

/-! ## Tokens of a source -/

section Scanned

variable (hs : input.Scanned)

include hs

omit hs in
theorem length_le_of_ahead (h : input.Ahead i (text.toList ++ after))
    (hw : Spells F text.toList w) (hF : F after) :
    i + w.length ≤ (lexemes input.source).length ∧
      ((lexemes input.source).drop i).take w.length = w := by
  obtain ⟨front, hfront, rfl⟩ := h.lexemes_source
  have hlexemes : lexemes (text.toList ++ after) = w ++ lexemes after := by
    rw [lexemes, hw.splits after hF, List.filterMap_append, ← lexemes, hw.lexemes]
    rfl
  rw [hfront, hlexemes]
  refine ⟨by simp, ?_⟩
  rw [List.drop_left, List.take_left]

/-- The tokens of a text, without their places. -/
theorem shows_of_spells (h : Spells F text.toList w) :
    Shows input F text w fun x => x.map bare = w where
  spells := h
  holds i after hF ha := by
    obtain ⟨hle, htake⟩ := length_le_of_ahead ha h hF
    rw [hs.map_bare_span hle, htake]

/-- The tokens of a tight text have it as their source text. -/
theorem shows_tight (hsource : input.source = source.toList) (ht : Tight text.toList)
    (h : Spells F text.toList w) :
    Shows input F text w fun x => x.map bare = w ∧ sourceText source x = text where
  spells := h
  holds i after hF ha := by
    refine ⟨(shows_of_spells hs h).holds i after hF ha, ?_⟩
    obtain ⟨hle, -⟩ := length_le_of_ahead ha h hF
    have hbound : i + w.length ≤ input.tokens.size := by
      have hlength := congrArg List.length hs.map_bare
      rw [List.length_map, List.length_append, List.length_singleton, Array.length_toList]
        at hlength
      omega
    have hbetween := ha.between hs ht h hF
    rw [Input.between_eq_sourceText hsource (Nat.le_add_right _ _) hbound] at hbetween
    rw [hbetween, String.ofList_toList]

end Scanned

/-! ## Lines -/

theorem spells_newline : Spells Anything "\n".toList [] := Spells.newline

theorem bounded_newline : Bounded "\n" := bounded_of_delimiter rfl (by decide)

/-- A line shows what its text shows. -/
theorem Shows.indented (hs : input.Scanned) (h : Shows input Delimited text w P) (depth : Nat) :
    Shows input Anything (indented depth text) w P := by
  have hblanks : Spells Anything (String.join (List.replicate depth "    ")).toList [] := by
    refine Spells.blanks fun c hc => .inl ?_
    rw [String.toList_join, List.mem_flatMap] at hc
    obtain ⟨space, hspace, hc⟩ := hc
    rw [List.eq_of_mem_replicate hspace] at hc
    simpa using hc
  have hline := (shows_of_spells hs hblanks).append_anything
    (h.append_bounded (shows_of_spells hs spells_newline) bounded_newline)
  refine (hline.congr ?_ (by simp)).imp ?_
  · rw [Botscript.indented, String.append_assoc]
  · rintro _ ⟨y, _, rfl, hy, z, t, rfl, hz, ht⟩
    obtain rfl := List.map_eq_nil_iff.1 hy
    obtain rfl := List.map_eq_nil_iff.1 ht
    rwa [List.nil_append, List.append_nil]

/-! ## What lines denote -/

/-- The statements that some tokens are make a block. If it does not begin with a procedure, they do
not begin with a plain statement. -/
def Denoted (M : Denotation) (body : Block) (w : List Token) : Prop :=
  ∃ items, Sequence (M false) w items ∧ gather items = body ∧
    ((∀ c ∈ body.head?, c.Active) → items = [] ∨ ∃ c rest, items = .command c :: rest)

/-- Some tokens are the statements that a command stands for. -/
def Stated (M : Denotation) (w : List Token) : Command → Prop
  | .procedure text => ∃ us ≠ [], w = us.flatten ∧
    (∀ u ∈ us, M false u (.plain (statementText u))) ∧ text = " ".intercalate (us.map statementText)
  | c => M false w (.command c)

section Denoted

variable {M : Denotation} {body : Block} {c : Command}

theorem denoted_nil : Denoted M [] [] := ⟨[], .nil, rfl, fun _ => .inl rfl⟩

theorem gather_plain (texts : List String) (items : List Item)
    (h : items = [] ∨ ∃ c rest, items = .command c :: rest) :
    gatherAfter texts items = procedureOf texts ++ gather items := by
  obtain rfl | ⟨c, rest, rfl⟩ := h
  · exact (List.append_nil _).symm
  · rfl

theorem sequence_plain {us : List (List Token)} {items : List Item}
    (hus : ∀ u ∈ us, M false u (.plain (statementText u))) (h : Sequence (M false) v items) :
    Sequence (M false) (us.flatten ++ v) (us.map (fun u => .plain (statementText u)) ++ items) := by
  induction us with
  | nil => exact h
  | cons u us ih =>
    rw [List.flatten_cons, List.append_assoc]
    exact .cons (hus u List.mem_cons_self) (ih fun w hw => hus w (List.mem_cons_of_mem _ hw))

theorem gatherAfter_map_plain (texts : List String) (us : List (List Token)) (items : List Item) :
    gatherAfter texts (us.map (fun u => .plain (statementText u)) ++ items) =
      gatherAfter (texts ++ us.map statementText) items := by
  induction us generalizing texts with
  | nil => rw [List.map_nil, List.map_nil, List.append_nil, List.nil_append]
  | cons u us ih =>
    rw [List.map_cons, List.cons_append, gatherAfter, ih, List.append_assoc]
    rfl

/-- One more command in front of a block. -/
theorem denoted_cons (hc : Stated M u c) (hbody : Denoted M body v)
    (hapart : ∀ c' ∈ body.head?, c.Active ∨ c'.Active) : Denoted M (c :: body) (u ++ v) := by
  obtain ⟨items, hseq, rfl, hhead⟩ := hbody
  cases c with
  | procedure text =>
    obtain ⟨us, hne, rfl, hus, rfl⟩ := hc
    have hactive : ∀ c' ∈ (gather items).head?, c'.Active := fun c' hc' =>
      (hapart c' hc').resolve_left fun h => h _ rfl
    refine ⟨_, sequence_plain hus hseq, ?_, fun h => absurd rfl (h _ rfl _)⟩
    rw [gather, gatherAfter_map_plain, gather_plain _ _ (hhead hactive)]
    obtain ⟨u, us, rfl⟩ := List.exists_cons_of_ne_nil hne
    rfl
  | block | branch | loop | call =>
    exact ⟨_, .cons hc hseq, rfl, fun _ => .inr ⟨_, items, rfl⟩⟩

end Denoted

end Botscript
