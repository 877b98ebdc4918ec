import BayesGraph.Log
import BayesGraph.Variables

/-!
# Names

Which texts are names, and the check that the names of a model are used without ambiguity:
variables, loop variables, functions and distributions have different names.
-/

set_option autoImplicit false

namespace BayesGraph

namespace Names

/-- May the character stand inside a name? -/
def isNameChar (c : Char) : Bool := c.isAlphanum || c == '.' || c == '_'

/-- Is the text a name: a letter, and then letters, digits, points and underscores? One line break
at the very end is tolerated. -/
def isIdentifier (s : String) : Bool :=
  match s.toList with
  | [] => false
  | c :: rest =>
    let body := if rest.getLast? = some '\n' then rest.dropLast else rest
    c.isAlpha && body.all isNameChar

/-- Is the object a text that is a name? -/
def isIdentifierObject : Datum → Bool
  | .text s => isIdentifier s
  | _ => false

/-- Refuses the name that is at fault, if there is one. -/
def refuse {ν : Type} (fault : Option ν) (cause : ν → Cause) : Except Failure Unit :=
  match fault with
  | some name => .error (.compile ⟨cause name, none, none⟩)
  | none => .ok ()

/-- The names of the variables of a model, if they do not clash with the names of functions and
distributions (`reserved`), with loop variables or with the names in the data. -/
def verdict (m : Model) (dataNames : List String) (reserved : String → Bool) :
    Except Failure (List Datum) := do
  let used ← m.variableNames
  let loops := Stmt.loopVariables m.statements
  let defined := Stmt.definedNames m.statements
  refuse ((used ++ loops).find? (!isIdentifierObject ·)) (.invalidVariable ·.describe)
  refuse ((used ++ loops).find? (fun name => reserved name.shown)) (.reservedName ·.shown)
  refuse (loops.find? fun name => defined.contains name || dataNames.contains name.shown)
    (.loopShadowsModel ·.shown)
  refuse (dataNames.find? (!isIdentifier ·)) (.invalidDataName <| Text.quoted ·)
  return used

/-- Checks the names of a model against the names of functions and distributions, and against the
names in the data. Data that the model does not use is reported. -/
def check (m : Model) (dataNames : List String) (reserved : String → Bool) : Logged Unit := do
  let used ← verdict m dataNames reserved
  let unused := dataNames.filter fun name => !used.contains (.text name)
  unless unused.isEmpty do
    Logged.emit .warning
      ("data for " ++ ", ".intercalate unused ++ " is not used in model '" ++ m.name ++ "'")

end Names

end BayesGraph
