import DecisionDiagram.Answer
import DecisionDiagram.Call
import DecisionDiagram.Model
import DecisionDiagram.Text

/-!
# Answering calls

Each kind of call is answered by a computation on the state that it is a call to.
-/

namespace DecisionDiagram

open SessionM

namespace TableCall

def perform : TableCall Ref → EStateM Failure UniqueTable Answer
  | .insert var low high => fun table =>
      match table.insert ⟨var, low, high⟩ with
      | .ok (ref, table) => .ok (.ref ref) table
      | .error cause => .error (.error cause) table
  | .node ref => return .node? ((← get).node? ref)
  | .size => return .number (← get).size
  | .capacity => return .number (← get).capacity
  | .isEmpty => return .truth ((← get).size == 0)
  | .toList => return .nodes (← get).toList

end TableCall

namespace MemoCall

/-- The key of an operator and its operands, whose number must be right. -/
def keyOf (op : Operator) (operands : List Ref) : EStateM Failure Memo Key :=
  match Key.ofOperands? op operands with
  | some key => pure key
  | none => throw (.defect (.operandCount op operands.length))

def perform : MemoCall Ref → EStateM Failure Memo Answer
  | .lookUp op operands => do
      let key ← keyOf op operands
      return .ref? (← modifyGet (·.lookUp key))
  | .remember op operands result => do
      let key ← keyOf op operands
      modify (·.remember key result)
      return .unit
  | .size => return .number (← get).size
  | .capacity => return .number (← get).capacity
  | .isEmpty => return .truth ((← get).size == 0)
  | .clear => do
      modify Memo.clear
      return .unit

end MemoCall

def SessionM.onTable {α : Type} (action : EStateM Failure UniqueTable α) : SessionM α :=
  fun session =>
    match action.run session.table with
    | .ok answer table => .ok answer { session with table := table }
    | .error failure table => .error failure { session with table := table }

def SessionM.onMemo {α : Type} (action : EStateM Failure Memo α) : SessionM α :=
  fun session =>
    match action.run session.memo with
    | .ok answer memo => .ok answer { session with memo := memo }
    | .error failure memo => .error failure { session with memo := memo }

def Call.perform : Call Ref → SessionM Answer
  | .constant value => return .ref (.ofBool value)
  | .isConstant value ref => return .truth (ref == .ofBool value)
  | .isTerminal ref => return .truth ref.isTerminal
  | .make var low high => return .ref (← DecisionDiagram.make var low high)
  | .makeVar var => return .ref (← DecisionDiagram.makeVar var)
  | .makeNegatedVar var => return .ref (← DecisionDiagram.makeNegatedVar var)
  | .negate operand => return .ref (← DecisionDiagram.negate operand)
  | .apply op left right => return .ref (← DecisionDiagram.apply op left right)
  | .choose condition yes no => return .ref (← DecisionDiagram.choose condition yes no)
  | .conjoin operands => return .ref (← DecisionDiagram.conjoin operands)
  | .disjoin operands => return .ref (← DecisionDiagram.disjoin operands)
  | .cofactors ref var => do
      let (low, high) ← query (·.cofactors ref var)
      return .pair low high
  | .descendants roots => return .refs (← query (·.descendants roots))
  | .size root => return .number (← query (·.size root))
  | .bracket ref => return .text (← query (·.bracket ref))
  | .print root name => return .text (← query (·.print root name))
  | .model ref => return .path (← query (·.model? ref))
  | .countModels ref domain => return .models (← query (·.countModels ref domain))
  | .nodeOf ref => return .node (← query (·.node ref))
  | .varOf ref => return .number (← query (·.var ref)).toNat
  | .lowOf ref => return .ref (← query (·.low ref))
  | .highOf ref => return .ref (← query (·.high ref))
  | .contains ref => return .truth (← inspect (·.contains ref))
  | .nodeCount => return .number (← inspect (·.table.size))
  | .isEmpty => return .truth (← inspect (·.table.size == 0))
  | .describe => return .text (← inspect Manager.describe)
  | .budget => return .budget (← inspect (·.budget))
  | .table call => onTable call.perform
  | .memo call => onMemo call.perform

end DecisionDiagram
