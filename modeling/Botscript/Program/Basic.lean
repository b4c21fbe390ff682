/-!
# Programs

The tree of a program: straight-line statements are kept as text, control structures and calls of
known functions are nodes of their own. A `Block` lists commands in the order in which they run;
`Block.addStatement` keeps neighbouring statements together in one procedure.
-/

namespace Botscript

/-- A call of a function that the robot knows, with the text between its parentheses. -/
structure Call where
  name : String
  args : String
deriving DecidableEq, Repr, Inhabited

/-- A step of a program. A `procedure` is the text of straight-line statements. -/
inductive Command where
  | procedure (text : String)
  | block (body : List Command)
  | branch (condition : String) (thenBody elseBody : List Command)
  | loop (condition : String) (body : List Command)
  | call (call : Call)
deriving Repr, Inhabited

/-- Commands in the order in which they run. -/
abbrev Block := List Command

/-- A declared parameter with its number of `[]` pairs and the text of its initial value. -/
structure Param where
  name : String
  dims : Nat
  init : Option String
deriving DecidableEq, Repr, Inhabited

/-- A program is one function. -/
structure Program where
  name : String
  params : List Param
  body : Block
deriving Repr, Inhabited

namespace Command

/-! ## Induction and equality -/

/-- What holds of a command as soon as it holds of the commands inside holds of every command. -/
theorem induct {motive : Command → Prop} (procedure : ∀ text, motive (procedure text))
    (block : ∀ body, (∀ c ∈ body, motive c) → motive (block body))
    (branch : ∀ condition thenBody elseBody, (∀ c ∈ thenBody, motive c) →
      (∀ c ∈ elseBody, motive c) → motive (branch condition thenBody elseBody))
    (loop : ∀ condition body, (∀ c ∈ body, motive c) → motive (loop condition body))
    (call : ∀ call, motive (.call call)) (c : Command) : motive c :=
  Command.rec (motive_1 := motive) (motive_2 := fun body => ∀ c ∈ body, motive c)
    procedure block branch loop call nofun
    (fun _ _ head tail _ h => (List.mem_cons.1 h).elim (fun e => e ▸ head) (tail _)) c

mutual

/-- Whether two commands are the same tree. -/
def same : Command → Command → Bool
  | procedure text, procedure text' => text == text'
  | block body, block body' => sameAll body body'
  | branch condition thenBody elseBody, branch condition' thenBody' elseBody' =>
    condition == condition' && sameAll thenBody thenBody' && sameAll elseBody elseBody'
  | loop condition body, loop condition' body' => condition == condition' && sameAll body body'
  | call c, call c' => c == c'
  | _, _ => false

/-- Whether two blocks are the same trees in the same order. -/
def sameAll : List Command → List Command → Bool
  | [], [] => true
  | c :: rest, c' :: rest' => same c c' && sameAll rest rest'
  | _, _ => false

end

theorem sameAll_iff_of_forall {body : Block} (h : ∀ c ∈ body, ∀ c', same c c' = true ↔ c = c')
    (body' : Block) : sameAll body body' = true ↔ body = body' := by
  induction body generalizing body' with
  | nil => cases body' <;> simp [sameAll]
  | cons c rest ih =>
    cases body' with
    | nil => simp [sameAll]
    | cons c' rest' =>
      rw [sameAll, Bool.and_eq_true, h c List.mem_cons_self,
        ih (fun d hd => h d (List.mem_cons_of_mem _ hd)), List.cons.injEq]

theorem same_iff (c c' : Command) : same c c' = true ↔ c = c' := by
  induction c using Command.induct generalizing c' with
  | procedure text => cases c' <;> simp [same]
  | block body ih => cases c' <;> simp [same, sameAll_iff_of_forall ih]
  | branch condition thenBody elseBody iht ihe =>
    cases c' <;> simp [same, sameAll_iff_of_forall iht, sameAll_iff_of_forall ihe, and_assoc]
  | loop condition body ih => cases c' <;> simp [same, sameAll_iff_of_forall ih]
  | call c => cases c' <;> simp [same]

instance : DecidableEq Command := fun c c' => decidable_of_iff _ (same_iff c c')

end Command

deriving instance DecidableEq for Program

/-! ## Building blocks -/

namespace Block

/-- The text of a procedure with one more statement. -/
def join (text statement : String) : String :=
  if text.isEmpty then statement else text ++ " " ++ statement

/-- Adds a statement to the procedure at the end, if the block ends in one. -/
def appendText (b : Block) (statement : String) : Block :=
  match b.getLast? with
  | some (.procedure text) => b.dropLast ++ [.procedure (join text statement)]
  | _ => b

/-- Adds a statement: to the procedure at the end, or else as a new procedure. -/
def addStatement (b : Block) (statement : String) : Block :=
  match b.getLast? with
  | some (.procedure _) => b.appendText statement
  | _ => b ++ [.procedure statement]

end Block

end Botscript
