import Botscript.Program.Basic

/-!
# The text of a program

`Program.text` writes a tree as program text in one canonical form: four spaces a level, one
command a line, no comments. Control structures are always written with braces, and `else` only
before a body that is not empty.
-/

namespace Botscript

/-- A line of text at a depth of indentation. -/
def indented (depth : Nat) (text : String) : String :=
  String.join (List.replicate depth "    ") ++ text ++ "\n"

/-- A call as a statement. -/
def Call.text (c : Call) : String := c.name ++ "(" ++ c.args ++ ");"

mutual

/-- The lines of a command. -/
def Command.lines (depth : Nat) : Command → String
  | .procedure text => indented depth text
  | .call c => indented depth c.text
  | .block body => indented depth "\x7b" ++ Block.lines (depth + 1) body ++ indented depth "\x7d"
  | .branch condition thenBody elseBody =>
    indented depth ("if (" ++ condition ++ ") \x7b") ++ Block.lines (depth + 1) thenBody ++
      (if elseBody.isEmpty then indented depth "\x7d"
       else indented depth "\x7d else \x7b" ++ Block.lines (depth + 1) elseBody ++
         indented depth "\x7d")
  | .loop condition body =>
    indented depth ("while (" ++ condition ++ ") \x7b") ++ Block.lines (depth + 1) body ++
      indented depth "\x7d"

/-- The lines of the commands of a block. -/
def Block.lines (depth : Nat) : List Command → String
  | [] => ""
  | c :: rest => c.lines depth ++ Block.lines depth rest

end

/-- The text of a command that stands alone. -/
def Command.text (c : Command) : String := c.lines 0

/-- A parameter, always with `var` in front. -/
def Param.text (p : Param) : String :=
  "var " ++ p.name ++ String.join (List.replicate p.dims "[]") ++
    match p.init with
    | none => ""
    | some init => " = " ++ init

/-- The canonical text of a program. -/
def Program.text (p : Program) : String :=
  "func " ++ p.name ++ "(" ++ ", ".intercalate (p.params.map Param.text) ++ ") \x7b\n" ++
    Block.lines 1 p.body ++ "\x7d\n"

theorem Block.lines_append (depth : Nat) (front back : Block) :
    Block.lines depth (front ++ back) = Block.lines depth front ++ Block.lines depth back := by
  induction front with
  | nil => simp [Block.lines]
  | cons c rest ih => simp [Block.lines, ih, String.append_assoc]

end Botscript
