import DecisionDiagram.Manager
import Std.Data.TreeSet

/-!
# Walks

A walk visits everything that can be reached from some functions by following the
branches of decision nodes, in breadth-first order and each function once.  It makes
no assumption about the stored nodes: on a store with cycles it ends as well, and a
branch to an id that denotes nothing makes it fail.
-/

namespace DecisionDiagram

namespace Node

def lowFirst (node : Node) : List Ref :=
  [node.low, node.high]

def highFirst (node : Node) : List Ref :=
  [node.high, node.low]

end Node

/-- A function met on a walk, with its content if it is a decision node. -/
structure Stop where
  ref : Ref
  node? : Option Node
  deriving DecidableEq, Repr

namespace Manager

/-- Visit a queue of functions and what they lead to, leaving out what was seen
before.  Each step takes one function from the queue. -/
def walkWithin (manager : Manager) (branches : Node → List Ref) :
    (steps : Nat) → (queue : List Ref) → (seen : Std.TreeSet UInt32) → Except Failure (List Stop)
  | _, [], _ => .ok []
  | 0, _ :: _, _ => .error .tooDeep
  | steps + 1, ref :: queue, seen =>
      if seen.contains ref.id then
        manager.walkWithin branches steps queue seen
      else if ref.isTerminal then
        (manager.walkWithin branches steps queue (seen.insert ref.id)).map (⟨ref, none⟩ :: ·)
      else
        match manager.node ref with
        | .error failure => .error failure
        | .ok node =>
            (manager.walkWithin branches steps (queue ++ branches node)
              (seen.insert ref.id)).map (⟨ref, some node⟩ :: ·)

/-- Visit some functions and everything that they lead to.  A step takes one
function from the queue, and every stored node adds two to it once, so there are
enough steps for all. -/
def walk (manager : Manager) (branches : Node → List Ref) (roots : List Ref) :
    Except Failure (List Stop) :=
  manager.walkWithin branches (roots.length + 2 * manager.table.slots.size) roots ∅

/-- Everything that can be reached from some functions, in ascending order. -/
def descendants (manager : Manager) (roots : List Ref) : Except Failure (List Ref) :=
  (manager.walk Node.lowFirst roots).map fun stops =>
    (stops.map (·.ref)).mergeSort fun left right => left.id ≤ right.id

/-- How many functions a function leads to, itself and the constants included. -/
def size (manager : Manager) (root : Ref) : Except Failure Nat :=
  (manager.descendants [root]).map List.length

end Manager
end DecisionDiagram
