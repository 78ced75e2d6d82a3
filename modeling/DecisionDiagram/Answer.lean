import DecisionDiagram.Budget
import DecisionDiagram.Node

/-!
# Answers

What a call can be answered with.  An answer that holds ids issues them: later calls
of the same list may refer to them.
-/

namespace DecisionDiagram

inductive Answer where
  | unit
  | truth (value : Bool)
  | number (value : Nat)
  /-- A number of models, which has no bound. -/
  | models (count : Nat)
  | text (value : String)
  | ref (ref : Ref)
  | ref? (ref : Option Ref)
  | refs (refs : List Ref)
  /-- The functions for a false and for a true variable. -/
  | pair (low high : Ref)
  | node (node : Node)
  | node? (node : Option Node)
  /-- Ids in use with their contents. -/
  | nodes (nodes : List (Ref × Node))
  /-- The decisions of a model. -/
  | path (decisions : Option (List (Var × Bool)))
  | budget (budget : Budget)
  deriving DecidableEq, Repr

namespace Answer

/-- The ids that an answer issues, in order. -/
def issued : Answer → List Ref
  | .ref issued => [issued]
  | .ref? issued => issued.toList
  | .pair low high => [low, high]
  | _ => []

end Answer
end DecisionDiagram
