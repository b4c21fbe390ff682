import Botscript.Program.Basic

/-!
# Known functions

A `Registry` tells which functions a program may call, and how a call of each is recorded. A
`FunctionTable` is a finite registry that can be listed; a later registration of a name replaces
the earlier one.
-/

namespace Botscript

/-- Makes the call of a function from the text of its arguments. -/
abbrev Factory := String → Call

/-- The functions that a program may call. -/
abbrev Registry := String → Option Factory

/-- The factory that keeps the name and the argument text. -/
def Factory.plain (name : String) : Factory := Call.mk name

/-- Functions by name, the latest registration first. -/
structure FunctionTable where
  entries : List (String × Factory)

namespace FunctionTable

/-- The table without functions. -/
def empty : FunctionTable := ⟨[]⟩

/-- The table with one more function. -/
def register (table : FunctionTable) (name : String) (factory : Factory) : FunctionTable :=
  ⟨(name, factory) :: table.entries⟩

/-- A table whose calls keep name and argument text. -/
def withNames (names : List String) : FunctionTable :=
  names.foldl (fun table name => table.register name (.plain name)) empty

/-- The registry of a table. -/
def registry (table : FunctionTable) : Registry := fun name => table.entries.lookup name

/-- The registered names in the order of their code points. -/
def names (table : FunctionTable) : List String :=
  (table.entries.map Prod.fst).eraseDups.mergeSort (· ≤ ·)

theorem registry_register (table : FunctionTable) (name other : String) (factory : Factory) :
    (table.register name factory).registry other =
      if other = name then some factory else table.registry other := by
  unfold registry register
  by_cases h : other = name
  · subst h; simp
  · simp [List.lookup_cons, h, beq_eq_false_iff_ne.2 h]

private theorem registry_foldl_register (names : List String) (table : FunctionTable)
    (name : String) :
    (names.foldl (fun table name => table.register name (.plain name)) table).registry name =
      if name ∈ names then some (.plain name) else table.registry name := by
  induction names generalizing table with
  | nil => simp
  | cons first rest ih =>
    rw [List.foldl_cons, ih, registry_register]
    by_cases hr : name ∈ rest
    · simp [hr]
    · by_cases hf : name = first
      · subst hf; simp
      · simp [hr, hf]

/-- A table made from names knows those names, and keeps what it is given. -/
theorem registry_withNames (names : List String) (name : String) :
    (withNames names).registry name = if name ∈ names then some (.plain name) else none :=
  registry_foldl_register names empty name

end FunctionTable

end Botscript
