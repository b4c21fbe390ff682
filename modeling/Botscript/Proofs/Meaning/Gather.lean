import Botscript.Parse.Statement

/-!
# Gathering statements

`gather` says which commands a sequence of statements makes: each command stays where it is, and all
plain statements between two commands make one procedure. A block that is filled statement by
statement has these commands (`block_eq_gather`).
-/

namespace Botscript

open Parse

/-- The procedure of some plain statements, if there are any. -/
def procedureOf : List String → Block
  | [] => []
  | texts => [.procedure (" ".intercalate texts)]

/-- The commands of some statements, in front of which plain statements are still waiting. -/
def gatherAfter (texts : List String) : List Item → Block
  | [] => procedureOf texts
  | .empty :: rest => gatherAfter texts rest
  | .plain text :: rest => gatherAfter (texts ++ [text]) rest
  | .command c :: rest => procedureOf texts ++ c :: gatherAfter [] rest

/-- The commands of some statements. -/
def gather (items : List Item) : Block := gatherAfter [] items

/-! ## Filling a block -/

/-- A command that is no procedure. -/
def Command.Active (c : Command) : Prop := ∀ text, c ≠ .procedure text

/-- What statements are: a plain one has some text, and a command is no procedure. -/
def Parse.Item.Fair : Item → Prop
  | .empty => True
  | .plain text => text ≠ ""
  | .command c => c.Active

theorem intercalate_concat {texts : List String} (h : texts ≠ []) (text : String) :
    " ".intercalate (texts ++ [text]) = " ".intercalate texts ++ " " ++ text := by
  induction texts with
  | nil => exact absurd rfl h
  | cons first rest ih =>
    cases rest with
    | nil => simp [String.intercalate_cons_cons]
    | cons second rest =>
      rw [List.cons_append, List.cons_append, String.intercalate_cons_cons,
        String.intercalate_cons_cons, ← List.cons_append, ih (List.cons_ne_nil _ _)]
      simp only [String.append_assoc]

theorem intercalate_ne_empty {texts : List String} (h : texts ≠ []) (hne : ∀ t ∈ texts, t ≠ "") :
    " ".intercalate texts ≠ "" := by
  cases texts with
  | nil => exact absurd rfl h
  | cons first rest =>
    have hfirst := hne first List.mem_cons_self
    cases rest with
    | nil => simpa using hfirst
    | cons second rest =>
      rw [String.intercalate_cons_cons]
      intro he
      have := congrArg String.toList he
      simp [hfirst] at this

/-- A block whose last command is no procedure. -/
def Closed (b : Block) : Prop := ∀ text, b.getLast? ≠ some (.procedure text)

theorem addStatement_append_procedureOf {b : Block} (hb : Closed b) {texts : List String}
    (hne : ∀ t ∈ texts, t ≠ "") (text : String) :
    Block.addStatement (b ++ procedureOf texts) text = b ++ procedureOf (texts ++ [text]) := by
  cases texts with
  | nil =>
    have hnew : procedureOf ([] ++ [text]) = [.procedure text] := by
      simp [procedureOf]
    rw [procedureOf, List.append_nil, hnew]
    unfold Block.addStatement
    split
    · rename_i t ht
      exact absurd ht (hb t)
    · rfl
  | cons first rest =>
    have hfull : " ".intercalate (first :: rest) ≠ "" :=
      intercalate_ne_empty (List.cons_ne_nil _ _) hne
    have hnew : procedureOf ((first :: rest) ++ [text]) =
        [.procedure (" ".intercalate (first :: rest) ++ " " ++ text)] := by
      rw [← intercalate_concat (List.cons_ne_nil first rest)]
      rfl
    rw [hnew]
    simp only [procedureOf, Block.addStatement, Block.appendText, List.getLast?_concat,
      List.dropLast_concat, Block.join]
    rw [if_neg (by simpa [String.isEmpty_iff] using hfull)]

theorem foldl_addTo {b : Block} (hb : Closed b) {items : List Item} (h : ∀ item ∈ items, item.Fair)
    {texts : List String} (hne : ∀ t ∈ texts, t ≠ "") :
    items.foldl Item.addTo (b ++ procedureOf texts) = b ++ gatherAfter texts items := by
  induction items generalizing b texts with
  | nil => rfl
  | cons item rest ih =>
    have hitem := h item List.mem_cons_self
    have hrest : ∀ item ∈ rest, item.Fair := fun i hi => h i (List.mem_cons_of_mem _ hi)
    rw [List.foldl_cons]
    cases item with
    | empty => exact ih hb hrest hne
    | plain text =>
      rw [Item.addTo, addStatement_append_procedureOf hb hne]
      refine ih hb hrest fun t ht => ?_
      obtain ht | ht := List.mem_append.1 ht
      · exact hne t ht
      · exact List.mem_singleton.1 ht ▸ hitem
    | command c =>
      have hc : Closed (b ++ procedureOf texts ++ [c]) := fun text he => by
        rw [List.getLast?_concat] at he
        exact hitem text (Option.some.inj he)
      have hnil : rest.foldl Item.addTo (b ++ procedureOf texts ++ [c] ++ procedureOf []) =
          b ++ procedureOf texts ++ [c] ++ gatherAfter [] rest :=
        ih hc hrest fun t ht => absurd ht List.not_mem_nil
      rw [procedureOf, List.append_nil] at hnil
      rw [Item.addTo, hnil, gatherAfter]
      simp only [List.append_assoc, List.singleton_append]

/-- A block filled with statements one after another has the commands that the statements make. -/
theorem block_eq_gather {items : List Item} (h : ∀ item ∈ items, item.Fair) :
    Item.block items = gather items := by
  have hnil : Closed [] := fun _ he => by cases he
  have hfold : items.foldl Item.addTo ([] ++ procedureOf []) = [] ++ gatherAfter [] items :=
    foldl_addTo hnil h fun t ht => absurd ht List.not_mem_nil
  exact hfold

end Botscript
