import DecisionDiagram.Error
import DecisionDiagram.Journal

/-!
# Setting up

Reserving a table can fail, and it is reported while no manager exists yet.  A setup
is a computation with exactly these two effects.
-/

namespace DecisionDiagram

/-- A computation that writes to a journal and may fail. -/
abbrev Setup := EStateM Failure Journal

namespace Setup

def record (event : Event) : Setup Unit :=
  modify (·.record event)

/-- Reserve bytes for a table.  One reservation may not exceed the limit. -/
def reserve (limit : Nat) (component : Component) (bytes : Nat) : Setup Unit :=
  if bytes ≤ limit then pure ()
  else throw (.error (.allocationFailure component bytes))

/-- Go on with a value, or stop with the defect in its place. -/
def checked {α : Type} : Except Defect α → Setup α
  | .ok value => pure value
  | .error defect => throw (.defect defect)

@[simp] theorem checked_ok_bind {α β : Type} (value : α) (next : α → Setup β) :
    (checked (.ok value) >>= next) = next value := rfl

end Setup
end DecisionDiagram
