import DecisionDiagram.Count
import DecisionDiagram.Operator

/-!
# Calls

The calls that tables and managers answer, as data.  A call is generic in how its
operands are given: as ids, or in a form that is yet to be resolved into ids.
-/

namespace DecisionDiagram

inductive TableCall (ρ : Type) where
  /-- The id of any content, well formed or not. -/
  | insert (var : Var) (low high : ρ)
  | node (ref : ρ)
  | size
  | capacity
  | isEmpty
  | toList
  deriving Repr

inductive MemoCall (ρ : Type) where
  | lookUp (op : Operator) (operands : List ρ)
  | remember (op : Operator) (operands : List ρ) (result : ρ)
  | size
  | capacity
  | isEmpty
  | clear
  deriving Repr

inductive Call (ρ : Type) where
  | constant (value : Bool)
  | isConstant (value : Bool) (ref : ρ)
  | isTerminal (ref : ρ)
  | make (var : Var) (low high : ρ)
  | makeVar (var : Var)
  | makeNegatedVar (var : Var)
  | negate (operand : ρ)
  | apply (op : BinaryOp) (left right : ρ)
  | choose (condition yes no : ρ)
  | conjoin (operands : List ρ)
  | disjoin (operands : List ρ)
  | cofactors (ref : ρ) (var : Var)
  | descendants (roots : List ρ)
  | size (root : ρ)
  | bracket (ref : ρ)
  | print (root : ρ) (name : String)
  | model (ref : ρ)
  | countModels (ref : ρ) (domain : Domain)
  | nodeOf (ref : ρ)
  | varOf (ref : ρ)
  | lowOf (ref : ρ)
  | highOf (ref : ρ)
  | contains (ref : ρ)
  | nodeCount
  | isEmpty
  | describe
  | budget
  | table (call : TableCall ρ)
  | memo (call : MemoCall ρ)

/-- Kinds of calls whose operands can be resolved, from the first to the last. -/
class HasOperands (κ : Type → Type) where
  resolve {ρ σ : Type} (lookup : ρ → Option σ) : κ ρ → Option (κ σ)

variable {ρ σ : Type}

def TableCall.resolve (lookup : ρ → Option σ) : TableCall ρ → Option (TableCall σ)
  | .insert var low high => do pure (.insert var (← lookup low) (← lookup high))
  | .node ref => do pure (.node (← lookup ref))
  | .size => some .size
  | .capacity => some .capacity
  | .isEmpty => some .isEmpty
  | .toList => some .toList

def MemoCall.resolve (lookup : ρ → Option σ) : MemoCall ρ → Option (MemoCall σ)
  | .lookUp op operands => do pure (.lookUp op (← operands.mapM lookup))
  | .remember op operands result => do
      pure (.remember op (← operands.mapM lookup) (← lookup result))
  | .size => some .size
  | .capacity => some .capacity
  | .isEmpty => some .isEmpty
  | .clear => some .clear

def Call.resolve (lookup : ρ → Option σ) : Call ρ → Option (Call σ)
  | .constant value => some (.constant value)
  | .isConstant value ref => do pure (.isConstant value (← lookup ref))
  | .isTerminal ref => do pure (.isTerminal (← lookup ref))
  | .make var low high => do pure (.make var (← lookup low) (← lookup high))
  | .makeVar var => some (.makeVar var)
  | .makeNegatedVar var => some (.makeNegatedVar var)
  | .negate operand => do pure (.negate (← lookup operand))
  | .apply op left right => do pure (.apply op (← lookup left) (← lookup right))
  | .choose condition yes no => do
      pure (.choose (← lookup condition) (← lookup yes) (← lookup no))
  | .conjoin operands => do pure (.conjoin (← operands.mapM lookup))
  | .disjoin operands => do pure (.disjoin (← operands.mapM lookup))
  | .cofactors ref var => do pure (.cofactors (← lookup ref) var)
  | .descendants roots => do pure (.descendants (← roots.mapM lookup))
  | .size root => do pure (.size (← lookup root))
  | .bracket ref => do pure (.bracket (← lookup ref))
  | .print root name => do pure (.print (← lookup root) name)
  | .model ref => do pure (.model (← lookup ref))
  | .countModels ref domain => do pure (.countModels (← lookup ref) domain)
  | .nodeOf ref => do pure (.nodeOf (← lookup ref))
  | .varOf ref => do pure (.varOf (← lookup ref))
  | .lowOf ref => do pure (.lowOf (← lookup ref))
  | .highOf ref => do pure (.highOf (← lookup ref))
  | .contains ref => do pure (.contains (← lookup ref))
  | .nodeCount => some .nodeCount
  | .isEmpty => some .isEmpty
  | .describe => some .describe
  | .budget => some .budget
  | .table call => (call.resolve lookup).map .table
  | .memo call => (call.resolve lookup).map .memo

instance : HasOperands TableCall := ⟨TableCall.resolve⟩

instance : HasOperands MemoCall := ⟨MemoCall.resolve⟩

instance : HasOperands Call := ⟨Call.resolve⟩

end DecisionDiagram
