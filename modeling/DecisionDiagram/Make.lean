import DecisionDiagram.Session

/-!
# Making nodes

The one way to build well-formed diagrams.  A node is made only on a proper
variable, over children that denote functions and test later variables, and never
with equal children: such a node would not depend on its variable, so its child
stands for it.
-/

namespace DecisionDiagram

open SessionM

/-- The id of the function "if `var` then `high` else `low`". -/
def make (var : Var) (low high : Ref) : SessionM Ref := do
  record (.make var low high)
  if var = terminalVar then
    throw (.violation .reservedVariable)
  else
    let lowVar ← query (·.var low)
    let highVar ← query (·.var high)
    if low = high then
      record (.redundant low high)
      pure low
    else if lowVar ≤ var then
      throw (.violation (.ordering var lowVar))
    else if highVar ≤ var then
      throw (.violation (.ordering var highVar))
    else
      publish ⟨var, low, high⟩

/-- The function that is true where the variable is. -/
def makeVar (var : Var) : SessionM Ref :=
  make var .falseRef .trueRef

/-- The function that is true where the variable is false. -/
def makeNegatedVar (var : Var) : SessionM Ref :=
  make var .trueRef .falseRef

end DecisionDiagram
