import BayesGraph.Error

/-!
# Messages of a compilation

Steps that report on their progress run in `Logged`: they end with a result or a failure, and in
both cases with the messages up to that point.
-/

set_option autoImplicit false

namespace BayesGraph

/-- The importance of a message, from low to high. -/
inductive Level where
  | debug
  | info
  | warning
  | error
deriving DecidableEq

namespace Level

/-- Position in the order of importance. -/
def rank : Level → Nat
  | .debug => 0
  | .info => 1
  | .warning => 2
  | .error => 3

/-- The level in capitals. -/
def text : Level → String
  | .debug => "DEBUG"
  | .info => "INFO"
  | .warning => "WARNING"
  | .error => "ERROR"

end Level

/-- A message. -/
structure LogEntry where
  level : Level
  text : String
deriving DecidableEq

/-- The messages that are at least as important as `least`. -/
def LogEntry.select (least : Level) (entries : List LogEntry) : List LogEntry :=
  entries.filter fun e => decide (least.rank ≤ e.level.rank)

/-- A computation that can fail and that emits messages. -/
abbrev Logged (ν : Type) : Type := ExceptT Failure (StateM (List LogEntry)) ν

/-- An error of the compiler is a failure. -/
instance : MonadLift (Except CompileError) (Except Failure) :=
  ⟨fun x => x.mapError Failure.compile⟩

/-- An error of an evaluation is a failure. -/
instance : MonadLift (Except EvalError) (Except Failure) := ⟨fun x => x.mapError Failure.eval⟩

/-- An object that no method can handle is a failure. -/
instance : MonadLift (Except Malformed) (Except Failure) :=
  ⟨fun x => x.mapError Failure.malformed⟩

namespace Logged

/-- Emits a message. -/
def emit (level : Level) (text : String) : Logged Unit :=
  modify (· ++ [⟨level, text⟩])

/-- The result and all messages. -/
def collect {ν : Type} (step : Logged ν) : Except Failure ν × List LogEntry := step.run []

end Logged

end BayesGraph
