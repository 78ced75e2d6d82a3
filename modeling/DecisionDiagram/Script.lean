import DecisionDiagram.Perform

/-!
# Scripts

A script is a list of calls whose operands may refer to ids that earlier calls of
the same list issued.  A call with an operand that was never issued is left out; a
call that fails issues nothing, and the script goes on.
-/

namespace DecisionDiagram

inductive Operand where
  /-- An id. -/
  | id (ref : Ref)
  /-- One of the ids issued by a step, both counted from zero. -/
  | issuedBy (step position : Nat)
  deriving DecidableEq, Repr

/-- What became of a step of a script. -/
inductive Outcome where
  | answered (answer : Answer)
  | failed (failure : Failure)
  /-- An operand was never issued, so the step was left out. -/
  | unresolved
  deriving DecidableEq, Repr

namespace Outcome

/-- The ids issued by a step. -/
def issued : Outcome → List Ref
  | .answered answer => answer.issued
  | _ => []

end Outcome

/-- The id that an operand stands for, given the outcomes of the steps before. -/
def Operand.lookup (outcomes : List Outcome) : Operand → Option Ref
  | .id ref => some ref
  | .issuedBy step position => do (← outcomes[step]?).issued[position]?

/-- How one step of a script is done on a state, given a way to resolve operands. -/
abbrev Stepper (step σ : Type) :=
  (Operand → Option Ref) → step → σ → Outcome × σ

namespace Stepper

variable {step σ : Type}

def run (action : EStateM Failure σ Answer) (state : σ) : Outcome × σ :=
  match action.run state with
  | .ok answer after => (.answered answer, after)
  | .error failure after => (.failed failure, after)

/-- Resolve the operands of a call, then answer it. -/
def ofPerform {κ : Type → Type} [HasOperands κ]
    (perform : κ Ref → EStateM Failure σ Answer) : Stepper (κ Operand) σ :=
  fun lookup call state =>
    match HasOperands.resolve lookup call with
    | none => (.unresolved, state)
    | some resolved => run (perform resolved) state

end Stepper

/-- A step that was done, and the state after it. -/
structure Report (σ : Type) where
  outcome : Outcome
  after : σ

namespace Script

variable {step σ : Type}

/-- Do the remaining steps of a script, given the outcomes of those before.  Between
two steps the state is settled: what belongs to one step alone is put away. -/
def runFrom (stepper : Stepper step σ) (settle : σ → σ) :
    (outcomes : List Outcome) → List step → σ → List (Report σ)
  | _, [], _ => []
  | outcomes, current :: rest, state =>
      let (outcome, after) := stepper (Operand.lookup outcomes) current state
      ⟨outcome, after⟩ :: runFrom stepper settle (outcomes ++ [outcome]) rest (settle after)

def run (stepper : Stepper step σ) (settle : σ → σ) (script : List step) (start : σ) :
    List (Report σ) :=
  runFrom stepper settle [] script start

end Script

def Session.settled (session : Session) : Session :=
  { session with journal := session.journal.emptied }

end DecisionDiagram
