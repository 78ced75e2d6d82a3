import DecisionDiagram.Script

/-!
# Schedules

Several scripts may work on one manager at the same time.  Every call is done as a
whole, so what happens is described by the order in which the scripts take turns.
-/

namespace DecisionDiagram

/-- A script part way through. -/
structure Progress where
  /-- The calls still to be done. -/
  remaining : List (Call Operand)
  /-- What became of the calls done so far, the first one first. -/
  outcomes : List Outcome := []

namespace Progress

/-- Do the next call of a script, if there is one. -/
def advance (progress : Progress) (session : Session) : Progress × Session :=
  match progress.remaining with
  | [] => (progress, session)
  | call :: rest =>
      let (outcome, after) :=
        Stepper.ofPerform Call.perform (Operand.lookup progress.outcomes) call session
      (⟨rest, progress.outcomes ++ [outcome]⟩, after)

end Progress

/-- Which script takes each turn. -/
abbrev Schedule := List Nat

namespace Schedule

/-- Let scripts take turns on a session.  A turn of a script that does not exist is
left out. -/
def runFrom : Schedule → List Progress → Session → List Progress × Session
  | [], scripts, session => (scripts, session)
  | turn :: rest, scripts, session =>
      match scripts[turn]? with
      | none => runFrom rest scripts session
      | some progress =>
          let (advanced, after) := progress.advance session
          runFrom rest (scripts.set turn advanced) after

/-- Let scripts take turns on a session, each from its first call on: what became of
the calls of each script, and the session after the last turn. -/
def run (schedule : Schedule) (scripts : List (List (Call Operand))) (session : Session) :
    List (List Outcome) × Session :=
  let (ended, after) := schedule.runFrom (scripts.map fun script => { remaining := script }) session
  (ended.map (·.outcomes), after)

/-- The schedule that does one script after the other. -/
def sequential (scripts : List (List (Call Operand))) : Schedule :=
  scripts.zipIdx.flatMap fun (script, turn) => List.replicate script.length turn

end Schedule
end DecisionDiagram
