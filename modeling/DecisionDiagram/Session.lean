import DecisionDiagram.Manager

/-!
# Sessions

A session is a manager at work: its tables, and the journal to which it reports.
The operators of the library are computations on a session.  A computation that
fails keeps what it did before it failed.
-/

namespace DecisionDiagram

/-- A manager together with its journal. -/
structure Session extends Manager where
  journal : Journal

/-- A computation that works on a session and may fail. -/
abbrev SessionM := EStateM Failure Session

namespace SessionM

def record (event : Event) : SessionM Unit :=
  modify fun session => { session with journal := session.journal.record event }

/-- Ask the manager a question that may fail. -/
def query {α : Type} (question : Manager → Except Failure α) : SessionM α := fun session =>
  match question session.toManager with
  | .ok answer => .ok answer session
  | .error failure => .error failure session

def inspect {α : Type} (question : Manager → α) : SessionM α :=
  fun session => .ok (question session.toManager) session

/-- The id of a content, which is stored if it is new.  Nothing is asked of the
content: use `make` for nodes that keep diagrams well formed. -/
def publish (node : Node) : SessionM Ref := fun session =>
  match session.table.insert node with
  | .ok (ref, table) => .ok ref { session with table := table }
  | .error cause => .error (.error cause) session

/-- The result remembered for a key.  Each lookup is counted. -/
def lookUp (key : Key) : SessionM (Option Ref) := do
  let found ← modifyGet fun session =>
    let (found, memo) := session.memo.lookUp key
    (found, { session with memo := memo })
  match found with
  | some result => pure (some result)
  | none =>
      record (.missed key)
      pure none

def remember (key : Key) (result : Ref) : SessionM Unit :=
  modify fun session => { session with memo := session.memo.remember key result }

end SessionM
end DecisionDiagram
