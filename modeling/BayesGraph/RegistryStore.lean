import BayesGraph.Registry

/-!
# Registries in memory

Registries that are changed in place. A registry is an object with references to three tables in
memory. A new registry gets new tables, into which the tables of the built-in functions and families
are copied; a copy of a registry gets new tables as well. A registration checks the name and the
object and then writes into the tables. Nothing is undone if it fails.
-/

set_option autoImplicit false

namespace BayesGraph

/-- Inserts the entries of another table, in their order. -/
def Table.update {κ ν : Type} [DecidableEq κ] (t other : Table κ ν) : Table κ ν :=
  other.entries.foldl (fun t e => t.insert e.1 e.2) t

/-- Tables in memory, by their addresses. -/
structure Arena (ν : Type) where
  cells : List (Table String ν)

namespace Arena

variable {ν : Type}

/-- The address of the next new table. -/
def next (a : Arena ν) : Nat := a.cells.length

/-- Makes a new table without entries. -/
def extend (a : Arena ν) : Arena ν := ⟨a.cells ++ [Table.empty]⟩

/-- The table at an address. -/
def read (a : Arena ν) (i : Nat) : Table String ν := a.cells[i]?.getD Table.empty

/-- Replaces the table at an address. -/
def write (a : Arena ν) (i : Nat) (t : Table String ν) : Arena ν := ⟨a.cells.set i t⟩

end Arena

/-- The addresses of the tables of a registry. -/
structure RegistryObject where
  families : Nat
  functions : Nat
  foldingFunctions : Nat

/-- The memory of a session: tables of families, tables of functions, and the registries. -/
structure RegistryStore (α : Type) where
  familyTables : Arena (Family α)
  functionTables : Arena (Callable α)
  registries : List RegistryObject := []

/-- A call of a method of the registry with a number. -/
inductive Call (α : Type) where
  | registerFunction (registry : Nat) (name : Datum) (f : Callable α) (count : Option Nat)
  | registerFamily (registry : Nat) (offer : FamilyOffer α)
  | copy (registry : Nat)

namespace RegistryStore

variable {α : Type}

/-- The tables of the built-in functions and families, which belong to no registry. -/
def builtins : RegistryObject := ⟨0, 0, 1⟩

/-- The memory before there is any registry. -/
def loaded [Scalar α] : RegistryStore α :=
  let builtin : Registry α := .builtin
  { familyTables := ⟨[builtin.families]⟩
    functionTables := ⟨[builtin.functions, builtin.foldingFunctions]⟩ }

/-- What the tables of a registry hold. -/
def view (s : RegistryStore α) (o : RegistryObject) : Registry α where
  families := s.familyTables.read o.families
  functions := s.functionTables.read o.functions
  foldingFunctions := s.functionTables.read o.foldingFunctions

/-- The registries of a session. -/
def views (s : RegistryStore α) : List (Registry α) := s.registries.map s.view

/-- Puts a family into a table. -/
def putFamily (s : RegistryStore α) (address : Nat) (name : String) (f : Family α) :
    RegistryStore α :=
  { s with
    familyTables := s.familyTables.write address ((s.familyTables.read address).insert name f) }

/-- Puts a function into a table. -/
def putFunction (s : RegistryStore α) (address : Nat) (name : String) (f : Callable α) :
    RegistryStore α :=
  { s with
    functionTables :=
      s.functionTables.write address ((s.functionTables.read address).insert name f) }

/-- Makes three tables without entries. -/
def allocate (s : RegistryStore α) : RegistryObject × RegistryStore α :=
  (⟨s.familyTables.next, s.functionTables.next, s.functionTables.next + 1⟩,
    { s with
      familyTables := s.familyTables.extend
      functionTables := s.functionTables.extend.extend })

/-- Inserts the entries of a table of families into another one. -/
def updateFamilies (s : RegistryStore α) (source target : Nat) : RegistryStore α :=
  { s with
    familyTables := s.familyTables.write target
      ((s.familyTables.read target).update (s.familyTables.read source)) }

/-- Inserts the entries of a table of functions into another one. -/
def updateFunctions (s : RegistryStore α) (source target : Nat) : RegistryStore α :=
  { s with
    functionTables := s.functionTables.write target
      ((s.functionTables.read target).update (s.functionTables.read source)) }

/-- Puts a registry behind the others. -/
def add (s : RegistryStore α) (o : RegistryObject) : RegistryStore α :=
  { s with registries := s.registries ++ [o] }

/-- A program that changes the memory and may fail. A failure keeps the changes made before it. -/
abbrev Action (α β : Type) : Type := EStateM CompileError (RegistryStore α) β

/-- A check, which reads the memory. -/
def checking {β : Type} (check : RegistryStore α → Except CompileError β) : Action α β := fun s =>
  match check s with
  | .ok b => .ok b s
  | .error e => .error e s

/-- Makes a registry, into which the tables of another one are copied. -/
def create (source : Option RegistryObject) : Action α Unit := do
  let o ← modifyGet allocate
  if let some held := source then
    modify (·.updateFamilies held.families o.families)
    modify (·.updateFunctions held.functions o.functions)
    modify (·.updateFunctions held.foldingFunctions o.foldingFunctions)
  modify (·.add o)

/-- Registers a function. -/
def registerFunction (o : RegistryObject) (name : Datum) (f : Callable α) (count : Option Nat) :
    Action α Unit := do
  let text ← checking fun s => (s.view o).checkName name
  checking fun _ => f.check text count
  modify (·.putFunction o.functions text f)
  modify (·.putFunction o.foldingFunctions text f)

/-- Registers a family. -/
def registerFamily (o : RegistryObject) : FamilyOffer α → Action α Unit
  | .other kind => throw ⟨.notFamily kind, none, none⟩
  | .family f => do
    let text ← checking fun s => (s.view o).checkName (.text f.name)
    checking fun _ => f.logPdf.check text (some (f.params.length + 1))
    checking fun _ => f.support.check text (some f.params.length)
    if let some c := f.logCdf then
      checking fun _ => c.check text (some (f.params.length + 1))
    modify (·.putFamily o.families text f)

/-- Does something with the registry of a number, if there is one. -/
def withRegistry (i : Nat) (action : RegistryObject → Action α Unit) : Action α Unit := do
  if let some o := (← get).registries[i]? then
    action o

/-- Makes a call. -/
def perform : Call α → Action α Unit
  | .registerFunction i name f count => withRegistry i (registerFunction · name f count)
  | .registerFamily i offer => withRegistry i (registerFamily · offer)
  | .copy i => withRegistry i fun o => create (some o)

/-- The memory that an action leaves, whether it fails or not. -/
def left (s : RegistryStore α) (action : Action α Unit) : RegistryStore α :=
  match action.run s with
  | .ok _ s' => s'
  | .error _ s' => s'

/-- A session with one registry, with or without what is built in. -/
def start [Scalar α] (includeBuiltins : Bool) : RegistryStore α :=
  loaded.left (create (if includeBuiltins then some builtins else none))

/-- The memory after calls, each of which may fail. -/
def after (s : RegistryStore α) (calls : List (Call α)) : RegistryStore α :=
  calls.foldl (fun s call => s.left (perform call)) s

/-- The memory after calls of methods of one registry and of its copies. -/
def session [Scalar α] (includeBuiltins : Bool) (calls : List (Call α)) : RegistryStore α :=
  (start includeBuiltins).after calls

end RegistryStore

end BayesGraph
