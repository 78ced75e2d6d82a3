import DecisionDiagram.Operations
import DecisionDiagram.Walk

/-!
# Texts of diagrams

A diagram is written in two ways: as one bracketed term in which shared parts are
repeated, and as a listing with one line for each function in it.  Both put the
branch for a true variable first.
-/

namespace DecisionDiagram

/-- One line of a listing: an id, and the constant or decision that it stands for. -/
def Stop.line (stop : Stop) : String :=
  match stop.node? with
  | none => s!"  {stop.ref} = " ++ toString (stop.ref == .trueRef)
  | some node => s!"  {stop.ref} = x{node.var} ? {node.high} : {node.low}"

namespace Manager

/-- The diagram of a function as a bracketed term, at most so many levels deep. -/
def bracketWithin (manager : Manager) : (depth : Nat) → Ref → Except Failure String
  | 0, _ => .error .tooDeep
  | depth + 1, ref =>
      match ref.constant? with
      | some false => .ok "(0)"
      | some true => .ok "(1)"
      | none => do
          let node ← manager.node ref
          let high ← manager.bracketWithin depth node.high
          let low ← manager.bracketWithin depth node.low
          pure s!"{ref}:(x{node.var}, {high}, {low})"

def bracket (manager : Manager) (ref : Ref) : Except Failure String :=
  manager.bracketWithin nestingLimit ref

/-- The lines of a listing: a heading, then the functions in breadth-first order. -/
def listing (manager : Manager) (root : Ref) (name : String) : Except Failure (List String) :=
  (manager.walk Node.highFirst [root]).map fun stops =>
    (name ++ s!" (root {root}):") :: stops.map Stop.line

/-- A listing as a text in which every line is ended. -/
def print (manager : Manager) (root : Ref) (name : String) : Except Failure String :=
  (manager.listing root name).map fun lines => "\n".intercalate lines ++ "\n"

end Manager
end DecisionDiagram
