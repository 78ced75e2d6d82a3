import DecisionDiagram.Hash
import DecisionDiagram.Operator

/-!
# Keys of remembered results

A remembered result is filed under its operator and operands.  Operators with fewer
than three operands leave the places behind them filled with the constant `false`;
the operator says how many places count, so that keys stay distinct.
-/

namespace DecisionDiagram

/-- An operator with its operands, padded to three. -/
structure Key where
  op : Operator
  first : Ref
  second : Ref
  third : Ref
  deriving DecidableEq, Repr

namespace Key

def negation (operand : Ref) : Key :=
  ⟨.not, operand, .falseRef, .falseRef⟩

def binary (op : BinaryOp) (left right : Ref) : Key :=
  ⟨.binary op, left, right, .falseRef⟩

def conditional (condition yes no : Ref) : Key :=
  ⟨.ite, condition, yes, no⟩

/-- The key of an operator and a list of operands of the right length. -/
def ofOperands? : Operator → List Ref → Option Key
  | .not, [operand] => some (negation operand)
  | .binary op, [left, right] => some (binary op left right)
  | .ite, [condition, yes, no] => some (conditional condition yes no)
  | _, _ => none

/-- The hash of a key: the number of the operator and the three operands. -/
def hash (key : Key) : UInt64 :=
  Hash.mix (Hash.pair3 (Hash.pair key.op.tag key.first.id.toUInt64)
    key.second.id.toUInt64 key.third.id.toUInt64)

/-- A list of operands makes a key exactly when its length is the arity. -/
theorem isSome_ofOperands? (op : Operator) (operands : List Ref) :
    (ofOperands? op operands).isSome = true ↔ operands.length = op.arity := by
  rcases operands with _ | ⟨first, _ | ⟨second, _ | ⟨third, _ | ⟨fourth, rest⟩⟩⟩⟩ <;>
    cases op <;> simp [ofOperands?, Operator.arity]

end Key
end DecisionDiagram
