import Botscript.Proofs.Token.Cover

/-!
# Cutting the source between tokens

Two byte offsets cut a part out of a text if they lie between characters (`Cuts`). The start of a
token and the end of the same or a later one do (`cuts_of_slice`), also when only some neighbouring
tokens of the text are at hand.
-/

namespace Botscript

open Token

/-- Two byte offsets cut a part out of a text, between characters. -/
def Cuts (text : List Char) (start stop : Nat) : Prop :=
  ∃ before part after, text = before ++ part ++ after ∧ start = byteLength before ∧
    stop = byteLength before + byteLength part

/-- Of two fronts of a text the one with fewer bytes is a front of the other. -/
theorem prefix_of_byteLength_le {text front front' : List Char} (h : front <+: text)
    (h' : front' <+: text) (hle : byteLength front ≤ byteLength front') : front <+: front' := by
  obtain hshort | ⟨rest, rfl⟩ := List.prefix_or_prefix_of_prefix h h'
  · exact hshort
  · cases rest with
    | nil => rw [List.append_nil]
    | cons c rest =>
      have hsize := c.utf8Size_pos
      rw [byteLength_append, byteLength_cons] at hle
      omega

namespace Token

variable {text before after before' after' : List Char} {t u : Token} {tokens : List Token}

/-- Cut from the start of one token to the end of another that does not end before. -/
theorem StandsAt.cuts (h : StandsAt text t before after) (h' : StandsAt text u before' after')
    (hle : t.start ≤ u.stop) : Cuts text t.start u.stop := by
  have hfront : before <+: text := ⟨_, h.text_eq.symm⟩
  have hfront' : before' ++ u.image.toList <+: text :=
    ⟨after', by rw [List.append_assoc, h'.text_eq]⟩
  rw [h.start_eq, h'.stop_eq, h'.start_eq, ← byteLength_append] at hle ⊢
  obtain ⟨part, hpart⟩ := prefix_of_byteLength_le hfront hfront' hle
  refine ⟨before, part, after', ?_, rfl, ?_⟩
  · rw [hpart, List.append_assoc, h'.text_eq]
  · rw [← hpart, byteLength_append]

theorem Covers.le_start (h : Covers before tokens text) :
    ∀ t ∈ tokens, byteLength before ≤ t.start := by
  induction h with
  | @ending before gap =>
    refine List.forall_mem_singleton.2 ?_
    show byteLength before ≤ (Position.origin.advance (before ++ gap)).offset
    rw [Position.offset_advance_origin, byteLength_append]
    exact Nat.le_add_right _ _
  | @token before gap more after c t rest _ _ _ hpos _ _ ih =>
    refine List.forall_mem_cons.2 ⟨?_, fun u hu => le_trans ?_ (ih u hu)⟩
    · rw [start, hpos, Position.offset_advance_origin, byteLength_append]
      exact Nat.le_add_right _ _
    · rw [byteLength_append, byteLength_append, Nat.add_assoc]
      exact Nat.le_add_right _ _

/-- Tokens stand one behind the other. -/
theorem Covers.pairwise (h : Covers before tokens text) :
    tokens.Pairwise fun t u => t.stop ≤ u.start := by
  induction h with
  | ending => exact List.pairwise_singleton _ _
  | @token before gap more after c t rest _ _ himage hpos hstop hrest ih =>
    refine List.pairwise_cons.2 ⟨fun u hu => ?_, ih⟩
    rw [hstop, start, hpos, Position.offset_advance_origin, himage, ← byteLength_append]
    exact hrest.le_start u hu

end Token

/-- Among neighbouring tokens of a text, the start of each and the end of each later one cut a part
out of the text. -/
theorem cuts_of_slice {source : String} {tokens all : List Token} (h : tokenize source = .ok all)
    (hslice : tokens <:+: all) {i j : Nat} (hij : i ≤ j) (hj : j < tokens.length) :
    Cuts source.toList tokens[i].start tokens[j].stop := by
  have hcovers := covers_tokenize h
  have hstands : ∀ t ∈ tokens, ∃ before after, StandsAt source.toList t before after := by
    intro t ht
    obtain ⟨before, after, hstands, -⟩ := hcovers.exists_standsAt t (hslice.subset ht)
    exact ⟨before, after, hstands⟩
  obtain ⟨before, after, hi⟩ := hstands _ (List.getElem_mem (hij.trans_lt hj))
  obtain ⟨before', after', hj'⟩ := hstands _ (List.getElem_mem hj)
  refine hi.cuts hj' ?_
  have hle : tokens[j].start ≤ tokens[j].stop := hj'.stop_eq ▸ Nat.le_add_right _ _
  obtain rfl | hlt := hij.eq_or_lt
  · exact hle
  · have hbehind := hcovers.pairwise.sublist hslice.sublist
    have hnext : tokens[i].stop ≤ tokens[j].start := List.pairwise_iff_getElem.1 hbehind _ _ _ _ hlt
    exact ((hi.stop_eq ▸ Nat.le_add_right _ _).trans hnext).trans hle

end Botscript
