import DecisionDiagram.Script

/-!
# The shared manager

A program may install one manager for all of its parts.  It is installed at most
once and stays until the program ends; asking for it earlier is an error.
-/

namespace DecisionDiagram

/-- Where the shared manager is kept. -/
structure Shared where
  installed : Option Manager := none
  journal : Journal

abbrev SharedM := EStateM Failure Shared

/-- A call to the shared manager, or one that concerns its place. -/
inductive SharedCall (ρ : Type) where
  /-- Install a manager with the default budget after some changes. -/
  | install (edits : List Budget.Edit)
  /-- Describe the installed manager. -/
  | describe
  /-- A call to the installed manager. -/
  | call (call : Call ρ)

namespace Shared

/-- Do a setup, reporting to the journal. -/
def setUp {α : Type} (setup : Setup α) : SharedM α := fun shared =>
  match setup.run shared.journal with
  | .ok made journal => .ok made { shared with journal := journal }
  | .error failure journal => .error failure { shared with journal := journal }

/-- Make a manager that is to be the shared one. -/
def launch (limit : Nat) (budget : Budget) : Setup Manager := do
  let manager ← Manager.create limit budget
  Setup.record .installed
  pure manager

/-- Install a manager, unless one is installed already. -/
def install (limit : Nat) (budget : Budget) : SharedM Unit := do
  if (← get).installed.isSome then
    throw (.error .alreadyInitialized)
  else
    let manager ← setUp (launch limit budget)
    modify fun shared => { shared with installed := some manager }

def manager : SharedM Manager := do
  match (← get).installed with
  | some manager => pure manager
  | none => throw (.error .notInitialized)

def onManager {α : Type} (action : SessionM α) : SharedM α := do
  let session : Session := { (← manager) with journal := (← get).journal }
  match action.run session with
  | .ok answer after =>
      set { installed := some after.toManager, journal := after.journal : Shared }
      pure answer
  | .error failure after =>
      set { installed := some after.toManager, journal := after.journal : Shared }
      throw failure

/-- Do one step of a script on the shared manager.  Without one, calls fail before
their operands are looked at. -/
def step (limit : Nat) : Stepper (SharedCall Operand) Shared := fun lookup call =>
  match call with
  | .install edits =>
      Stepper.run do
        match Budget.ofEdits edits with
        | .error defect => throw (.defect defect)
        | .ok budget =>
            install limit budget
            return .budget budget
  | .describe => Stepper.run do return .text (← manager).describe
  | .call call => fun shared =>
      match shared.installed with
      | none => (.failed (.error .notInitialized), shared)
      | some _ =>
          match call.resolve lookup with
          | none => (.unresolved, shared)
          | some resolved => Stepper.run (onManager resolved.perform) shared

def settled (shared : Shared) : Shared :=
  { shared with journal := shared.journal.emptied }

end Shared
end DecisionDiagram
