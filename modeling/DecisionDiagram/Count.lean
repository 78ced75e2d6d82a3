import DecisionDiagram.Operations
import Std.Data.TreeSet

/-!
# Counting models

Over a finite set of variables a function has a finite number of models.  A decision
node is counted over the variables from its own on; each variable that a branch
skips doubles the count of that branch.
-/

namespace DecisionDiagram

/-- The variables over which models are counted. -/
abbrev Domain := Std.TreeSet Var

/-- Counts that were worked out already, by id. -/
abbrev Counts := Std.TreeMap UInt32 Nat

abbrev CountM := EStateM Failure Counts

/-- The place of a variable in an ascending list; constants lie below all of it. -/
def levelIn (domain : List Var) (var : Var) : Except Failure Nat :=
  if var = terminalVar then .ok domain.length
  else
    match domain.idxOf? var with
    | some level => .ok level
    | none => .error (.violation (.outOfDomain var))

namespace Manager

/-- How many variables lie between a level and the first test of a branch below it. -/
def skipped (manager : Manager) (domain : List Var) (here : Nat) (branch : Ref) :
    Except Failure Nat := do
  let below ← levelIn domain (← manager.var branch)
  if here < below then pure (below - here - 1)
  else throw (.defect .levelsOutOfOrder)

/-- The number of models over the variables from the function's own on, at most so
many levels deep. -/
def countWithin (manager : Manager) (domain : List Var) : (depth : Nat) → Ref → CountM Nat
  | 0, _ => throw .tooDeep
  | depth + 1, ref =>
      match ref.constant? with
      | some value => pure (if value then 1 else 0)
      | none => do
          match (← get)[ref.id]? with
          | some count => pure count
          | none =>
              let node ← ofExcept (manager.node ref)
              let here ← ofExcept (levelIn domain node.var)
              let lowSkipped ← ofExcept (manager.skipped domain here node.low)
              let low ← manager.countWithin domain depth node.low
              let highSkipped ← ofExcept (manager.skipped domain here node.high)
              let high ← manager.countWithin domain depth node.high
              let count := (low <<< lowSkipped) + (high <<< highSkipped)
              modify (·.insert ref.id count)
              pure count

/-- The number of assignments to exactly the variables of the domain under which the
function is true.  It fails if the function depends on another variable. -/
def countModels (manager : Manager) (ref : Ref) (domain : Domain) : Except Failure Nat := do
  let vars := domain.toList
  match (manager.countWithin vars nestingLimit ref).run ∅ with
  | .error failure _ => throw failure
  | .ok count _ =>
      let top ← levelIn vars (← manager.var ref)
      pure (count <<< top)

end Manager
end DecisionDiagram
