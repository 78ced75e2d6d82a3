import DecisionDiagram.Hash
import DecisionDiagram.Ref
import DecisionDiagram.Variable

/-!
# Decision nodes

A decision node tests one variable and names the functions that remain when the
variable is false (`low`) and when it is true (`high`).
-/

namespace DecisionDiagram

/-- The content of a decision node: "if `var` then `high` else `low`". -/
structure Node where
  var : Var
  low : Ref
  high : Ref
  deriving DecidableEq, Repr

namespace Node

/-- The hash of the three numbers of a node, in the order variable, low, high. -/
def hash (node : Node) : UInt64 :=
  Hash.triple node.var.toUInt64 node.low.id.toUInt64 node.high.id.toUInt64

/-- The ids of both branches in one word, `low` in its upper half. -/
def branches (node : Node) : UInt64 :=
  node.low.id.toUInt64 <<< 32 ||| node.high.id.toUInt64

/-- The node with a variable and with the branches that one word holds. -/
def ofBranches (var : Var) (branches : UInt64) : Node :=
  ⟨var, ⟨(branches >>> 32).toUInt32⟩, ⟨branches.toUInt32⟩⟩

/-- One word has room for both branches. -/
@[simp] theorem ofBranches_branches (node : Node) : ofBranches node.var node.branches = node := by
  obtain ⟨var, ⟨low⟩, ⟨high⟩⟩ := node
  have upper : ((low.toUInt64 <<< 32 ||| high.toUInt64) >>> 32).toUInt32 = low := by
    apply UInt32.toBitVec_inj.1
    simp
    grind
  have lower : (low.toUInt64 <<< 32 ||| high.toUInt64).toUInt32 = high := by
    apply UInt32.toBitVec_inj.1
    simp
  simp only [ofBranches, branches, upper, lower]

end Node
end DecisionDiagram
