import DecisionDiagram.Queens.Placement
import DecisionDiagram.Shared

/-!
# Solving the queens problem

One run of the solver: it installs a manager, builds the function of all placements
and counts its models.  A run prints lines; when it fails, the lines printed before
stand.
-/

namespace DecisionDiagram.Queens

/-- The size of the board, and of both tables in mebibytes. -/
structure Settings where
  n : Nat := 8
  nodeMebibytes : Nat := 256
  memoMebibytes : Nat := 512
  deriving DecidableEq, Repr

namespace Settings

def describe (settings : Settings) : String :=
  s!"Cli \x7b n: {settings.n}, node_mb: {settings.nodeMebibytes}, " ++
  s!"cache_mb: {settings.memoMebibytes} \x7d"

/-- A number of mebibytes in bytes, which must be countable in 64 bits. -/
def bytesOf (mebibytes : Nat) : Except Failure UInt64 :=
  if mebibytes <<< 20 < UInt64.size then .ok (UInt64.ofNat (mebibytes <<< 20))
  else .error (.defect (.tooManyBytes mebibytes))

def budget (settings : Settings) : Except Failure Budget := do
  let nodeBytes ← bytesOf settings.nodeMebibytes
  let memoBytes ← bytesOf settings.memoMebibytes
  pure { nodeBytes, memoBytes }

end Settings

/-- A computation that prints lines and may fail. -/
abbrev Printing := EStateM Failure (List String)

namespace Printing

def say (lines : List String) : Printing Unit :=
  modify (· ++ lines)

def eventLine (event : Event) : String :=
  "[" ++ event.level.label ++ "] " ++ event.text

/-- Do a setup and print its warnings and information. -/
def ofSetup {α : Type} (setup : Setup α) : Printing α := do
  match setup.run { threshold := some .info } with
  | .ok made journal =>
      say (journal.events.map eventLine)
      pure made
  | .error failure journal =>
      say (journal.events.map eventLine)
      throw failure

/-- Let a manager work, without reporting; the manager afterwards is a result. -/
def ofSession {α : Type} (manager : Manager) (action : SessionM α) : Printing (α × Manager) :=
  match action.run { manager with journal := {} } with
  | .ok answer session => pure (answer, session.toManager)
  | .error failure _ => throw failure

end Printing

open Printing

/-- Solve the problem.  Small boards also show the function found. -/
def solve (limit : Nat) (settings : Settings) : Printing Unit := do
  say ["args = " ++ settings.describe]
  let budget ← ofExcept settings.budget
  let manager ← ofSetup (Shared.launch limit budget)
  let n := settings.n
  say [s!"Using a {n}x{n} chess board"]
  let (root, manager) ← ofSession manager (placements n)
  say ["bdd = " ++ manager.describe]
  if n ≤ 2 then
    say (← ofExcept (manager.listing root s!"N-queens: {n}"))
  let count ← ofExcept (manager.countModels root (domain n))
  say [s!"There are {count} solutions"]

end DecisionDiagram.Queens
