import Botscript.Json.Value
import Botscript.Program.Basic

/-!
# Programs as JSON

`Program.toJson` shows a program tree to other tools: a command is an object whose only key says
which kind of command it is.
-/

namespace Botscript

/-- A call as an object. -/
def Call.toJson (c : Call) : Json := .object [("name", .string c.name), ("args", .string c.args)]

mutual

/-- A command as an object with one key. -/
def Command.toJson : Command → Json
  | .procedure text => .object [("Procedure", .object [("text", .string text)])]
  | .block body => .object [("Block", .object [("commands", .list (Block.toJsonItems body))])]
  | .branch condition thenBody elseBody =>
    .object [("If", .object [("condition", .string condition),
      ("then_block", .object [("commands", .list (Block.toJsonItems thenBody))]),
      ("else_block", .object [("commands", .list (Block.toJsonItems elseBody))])])]
  | .loop condition body =>
    .object [("While", .object [("condition", .string condition),
      ("body", .object [("commands", .list (Block.toJsonItems body))])])]
  | .call c => .object [("Call", c.toJson)]

/-- The commands of a block. -/
def Block.toJsonItems : List Command → List Json
  | [] => []
  | c :: rest => c.toJson :: Block.toJsonItems rest

end

/-- A block as an object. -/
def Block.toJson (b : Block) : Json := .object [("commands", .list (Block.toJsonItems b))]

/-- A parameter as an object. -/
def Param.toJson (p : Param) : Json :=
  .object [("name", .string p.name), ("dims", .number p.dims),
    ("init", match p.init with
      | none => .null
      | some init => .string init)]

/-- A program as an object. -/
def Program.toJson (p : Program) : Json :=
  .object [("name", .string p.name), ("params", .list (p.params.map Param.toJson)),
    ("body", Block.toJson p.body)]

end Botscript
