import BayesGraph.Printer

/-!
# Where a statement instance comes from

Messages about a statement inside loops show its first line and the values of the loop variables.
-/

set_option autoImplicit false

namespace BayesGraph

/-- The values of the loop variables, from the outermost loop inwards. -/
abbrev LoopValues : Type := List (String × Int)

namespace LoopValues

/-- The value of a loop variable. -/
def value? (env : LoopValues) (name : Datum) : Option Int :=
  (env.find? fun e => decide (name = .text e.1)).map (·.2)

end LoopValues

/-- The first line of a statement with the values of the loop variables. A loop shows its variable
only. -/
def Stmt.source (s : Stmt) (env : LoopValues) : Except Malformed String := do
  let head ←
    match s with
    | .loop _ var _ _ => .ok ("for ( " ++ var.shown ++ " in ... )")
    | _ => (s.print 4).map Text.firstLine
  if env.isEmpty then return head
  else
    return head ++ " with "
      ++ ", ".intercalate (env.map fun e => e.1 ++ " = " ++ toString e.2)

end BayesGraph
