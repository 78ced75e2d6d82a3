import DecisionDiagram.Operator
import DecisionDiagram.Variable

/-!
# Errors

What can go wrong in a manager.  An `Error` is a cause that the manager reports to
its caller.  A `Defect` is a broken precondition that the manager does not report
but stops at.  A `Failure` is either of them, or the recursion limit reached, which
happens only on stores whose nodes form a cycle.
-/

namespace DecisionDiagram

/-- The ways in which a diagram can fail to be well formed. -/
inductive Violation where
  /-- A child tests a variable that does not come after its parent's. -/
  | ordering (var childVar : Var)
  /-- The id is neither a constant nor a stored node. -/
  | unknownNode (node : Ref)
  /-- A decision on the number that stands for "no variable". -/
  | reservedVariable
  /-- The function depends on a variable outside the counting domain. -/
  | outOfDomain (var : Var)
  deriving DecidableEq, Repr

namespace Violation

def message : Violation → String
  | .ordering var childVar =>
      s!"node on variable {var} has a child on variable {childVar}"
  | .unknownNode node => s!"unknown node {node}"
  | .reservedVariable => "variable index is reserved for terminals"
  | .outOfDomain var => s!"variable {var} is not part of the domain"

/-- The violation as a constructor applied to its arguments. -/
def describe : Violation → String
  | .ordering var childVar =>
      s!"Ordering \x7b variable: {var}, child_variable: {childVar} \x7d"
  | .unknownNode node => "UnknownNode(" ++ node.describe ++ ")"
  | .reservedVariable => "ReservedVariable"
  | .outOfDomain var => s!"OutOfDomain \x7b variable: {var} \x7d"

end Violation

/-- The two tables whose storage is reserved in advance. -/
inductive Component where
  | uniqueTable
  | computedTable
  deriving DecidableEq, Repr

namespace Component

def name : Component → String
  | .uniqueTable => "unique table"
  | .computedTable => "computed table"

def ofName? (name : String) : Option Component :=
  [uniqueTable, computedTable].find? (·.name == name)

end Component

/-- The causes that a manager reports. -/
inductive Error where
  /-- A new node found no vacant slot. -/
  | capacityExhausted (capacity : Nat)
  /-- The caller broke an invariant of diagrams. -/
  | invariantViolation (violation : Violation)
  /-- A table could not be reserved. -/
  | allocationFailure (component : Component) (bytes : Nat)
  /-- The shared manager was installed before. -/
  | alreadyInitialized
  /-- The shared manager was not installed yet. -/
  | notInitialized
  deriving DecidableEq, Repr

namespace Error

def message : Error → String
  | .capacityExhausted capacity => s!"unique table is full ({capacity} nodes)"
  | .invariantViolation violation => "invariant violation: " ++ violation.message
  | .allocationFailure component bytes =>
      s!"could not allocate {bytes} bytes for the " ++ component.name
  | .alreadyInitialized => "the BDD manager is already initialized"
  | .notInitialized => "the BDD manager is not initialized"

/-- The kind of the error: the name of its constructor. -/
def kind : Error → String
  | .capacityExhausted _ => "CapacityExhausted"
  | .invariantViolation _ => "InvariantViolation"
  | .allocationFailure _ _ => "AllocationFailure"
  | .alreadyInitialized => "AlreadyInitialized"
  | .notInitialized => "NotInitialized"

/-- The error as a constructor applied to its arguments. -/
def describe (error : Error) : String :=
  error.kind ++ match error with
    | .capacityExhausted capacity => s!" \x7b capacity: {capacity} \x7d"
    | .invariantViolation violation => "(" ++ violation.describe ++ ")"
    | .allocationFailure component bytes =>
        " \x7b component: \"" ++ component.name ++ s!"\", bytes: {bytes} \x7d"
    | .alreadyInitialized => ""
    | .notInitialized => ""

/-- The error that caused this one.  Every error is a first cause: a violation is a
part of the error that carries it, not an error of its own. -/
def source? : Error → Option Error
  | _ => none

end Error

/-- Broken preconditions. -/
inductive Defect where
  /-- The number of operands is not the operator's arity. -/
  | operandCount (op : Operator) (given : Nat)
  /-- While counting, a child was met that does not lie below its parent. -/
  | levelsOutOfOrder
  /-- A remembered-results table of that many index bits is not supported. -/
  | memoBits (bits : Nat)
  /-- That many mebibytes are more bytes than 64 bits can count. -/
  | tooManyBytes (mebibytes : Nat)
  /-- An operation on words has no value. -/
  | arithmetic
  deriving DecidableEq, Repr

def Defect.message? : Defect → Option String
  | .memoBits bits => some s!"Cache bits must be in range 0..=31, got {bits}"
  | _ => none

/-- Why a call gave no answer. -/
inductive Failure where
  /-- The manager reported an error. -/
  | error (cause : Error)
  /-- The call broke a precondition. -/
  | defect (cause : Defect)
  /-- The recursion went deeper than any diagram without cycles can lead it. -/
  | tooDeep
  deriving DecidableEq, Repr

def Failure.violation (violation : Violation) : Failure :=
  .error (.invariantViolation violation)

end DecisionDiagram
