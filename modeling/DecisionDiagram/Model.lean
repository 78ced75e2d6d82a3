import DecisionDiagram.Operations

/-!
# Models

A model of a function is an assignment under which it is true.  In a reduced diagram
every function but the constant `false` has one, so a path that avoids that constant
always ends at the constant `true`.
-/

namespace DecisionDiagram
namespace Manager

/-- The decisions on the way to the constant `true`, at most so many.  A variable is
true unless that leads to the constant `false`. -/
def pathWithin (manager : Manager) (steps : Nat) (ref : Ref) :
    Except Failure (List (Var × Bool)) :=
  if ref = .trueRef then .ok []
  else
    match steps with
    | 0 => .error .tooDeep
    | steps + 1 =>
        match manager.node ref with
        | .error failure => .error failure
        | .ok node =>
            if node.high = .falseRef then
              (manager.pathWithin steps node.low).map ((node.var, false) :: ·)
            else
              (manager.pathWithin steps node.high).map ((node.var, true) :: ·)

/-- The decisions of one model, in the order of testing; variables not mentioned may
have either value.  The constant `false` has no model. -/
def model? (manager : Manager) (ref : Ref) : Except Failure (Option (List (Var × Bool))) :=
  if ref = .falseRef then .ok none
  else (manager.pathWithin nestingLimit ref).map some

end Manager
end DecisionDiagram
