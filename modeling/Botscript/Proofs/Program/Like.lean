import Mathlib.Data.List.Forall2
import Botscript.Parse.Statement

/-!
# Trees that differ in argument texts

`Like` relates trees that are the same but for the argument texts of calls, which may differ in a
given way. If they may not differ at all, the trees are the same (`Program.Like.eq`). Blocks put
together from such items are such blocks (`Item.Like.block`).
-/

namespace Botscript

section Like

variable (texts : String → String → Prop)

/-- Calls of one function. -/
structure Call.Like (call call' : Call) : Prop where
  name : call.name = call'.name
  args : texts call.args call'.args

/-- Commands that differ in the argument texts of calls only. -/
inductive Command.Like : Command → Command → Prop
  | procedure (text : String) : Like (.procedure text) (.procedure text)
  | block {body body' : Block} (h : List.Forall₂ Like body body') :
    Like (.block body) (.block body')
  | branch (condition : String) {thenBody thenBody' elseBody elseBody' : Block}
    (h : List.Forall₂ Like thenBody thenBody') (h' : List.Forall₂ Like elseBody elseBody') :
    Like (.branch condition thenBody elseBody) (.branch condition thenBody' elseBody')
  | loop (condition : String) {body body' : Block} (h : List.Forall₂ Like body body') :
    Like (.loop condition body) (.loop condition body')
  | call {call call' : Call} (h : call.Like texts call') : Like (.call call) (.call call')

/-- Blocks whose commands differ in the argument texts of calls only. -/
abbrev Block.Like : Block → Block → Prop := List.Forall₂ (Command.Like texts)

/-- Programs that differ in the argument texts of calls only. -/
structure Program.Like (p p' : Program) : Prop where
  name : p.name = p'.name
  params : p.params = p'.params
  body : Block.Like texts p.body p'.body

/-- Items that differ in the argument texts of calls only. -/
inductive Parse.Item.Like : Parse.Item → Parse.Item → Prop
  | empty : Like .empty .empty
  | plain (text : String) : Like (.plain text) (.plain text)
  | command {c c' : Command} (h : c.Like texts c') : Like (.command c) (.command c')

end Like

variable {texts : String → String → Prop}

/-! ## Equal trees -/

theorem Call.Like.eq {call call' : Call} (h : call.Like Eq call') : call = call' := by
  obtain ⟨name, args⟩ := call
  obtain ⟨rfl, rfl⟩ := h
  rfl

theorem Command.Like.eq {c c' : Command} (h : c.Like Eq c') : c = c' := by
  have hbody : ∀ {body body' : Block}, (∀ c ∈ body, ∀ {c'}, c.Like Eq c' → c = c') →
      Block.Like Eq body body' → body = body' := by
    intro body body' ih hb
    induction hb with
    | nil => rfl
    | cons hc _ ihb =>
      rw [ih _ List.mem_cons_self hc, ihb fun c hc => ih c (List.mem_cons_of_mem _ hc)]
  induction c using Command.induct generalizing c' with
  | procedure => cases h; rfl
  | block body ih => cases h with | block hb => rw [hbody ih hb]
  | branch condition thenBody elseBody iht ihe =>
    cases h with | branch _ ht he => rw [hbody iht ht, hbody ihe he]
  | loop condition body ih => cases h with | loop _ hb => rw [hbody ih hb]
  | call call => cases h with | call hc => rw [hc.eq]

theorem Program.Like.eq {p p' : Program} (h : p.Like Eq p') : p = p' := by
  have hbody : p.body = p'.body := by
    have heq := h.body.imp fun _ _ => Command.Like.eq
    rwa [List.forall₂_eq_eq_eq] at heq
  obtain ⟨name, params, body⟩ := p
  obtain ⟨rfl, rfl, -⟩ := h
  exact congrArg _ hbody

/-! ## Blocks of items -/

/-- The last of some related elements. -/
theorem forall₂_concat_left {α : Type} {R : α → α → Prop} {l l' : List α} {a : α}
    (h : List.Forall₂ R (l ++ [a]) l') :
    ∃ front a', l' = front ++ [a'] ∧ List.Forall₂ R l front ∧ R a a' := by
  induction l generalizing l' with
  | nil =>
    cases h with
    | cons ha hnil =>
      cases hnil
      exact ⟨[], _, rfl, .nil, ha⟩
  | cons b l ih =>
    cases h with
    | cons hb hrest =>
      obtain ⟨front, a', rfl, hfront, ha⟩ := ih hrest
      exact ⟨_ :: front, a', rfl, .cons hb hfront, ha⟩

theorem Block.Like.addStatement {b b' : Block} (h : Block.Like texts b b') (statement : String) :
    Block.Like texts (b.addStatement statement) (b'.addStatement statement) := by
  have hnew : Block.Like texts [.procedure statement] [.procedure statement] :=
    .cons (.procedure statement) .nil
  obtain rfl | ⟨front, c, rfl⟩ := List.eq_nil_or_concat' b
  · cases h
    exact hnew
  obtain ⟨front', c', rfl, hfront, hc⟩ := forall₂_concat_left h
  cases hc with
  | procedure text =>
    simp only [Block.addStatement, Block.appendText, List.getLast?_concat, List.dropLast_concat]
    exact List.rel_append hfront (.cons (.procedure _) .nil)
  | _ =>
    simp only [Block.addStatement, List.getLast?_concat]
    exact List.rel_append h hnew

namespace Parse

theorem Item.Like.addTo {b b' : Block} {item item' : Item} (hb : Block.Like texts b b')
    (h : item.Like texts item') : Block.Like texts (item.addTo b) (item'.addTo b') := by
  cases h with
  | empty => exact hb
  | plain text => exact hb.addStatement text
  | command hc => exact List.rel_append hb (.cons hc .nil)

theorem Item.Like.block {items items' : List Item}
    (h : List.Forall₂ (Item.Like texts) items items') :
    Block.Like texts (Item.block items) (Item.block items') := by
  have hfold : ∀ {b b' : Block}, Block.Like texts b b' →
      Block.Like texts (items.foldl Item.addTo b) (items'.foldl Item.addTo b') := by
    induction h with
    | nil => exact id
    | cons hi _ ih => exact fun hb => ih (hi.addTo hb)
  exact hfold .nil

end Parse

end Botscript
