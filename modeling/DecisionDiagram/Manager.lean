import DecisionDiagram.Memo
import DecisionDiagram.UniqueTable

/-!
# Managers

A manager owns one unique table and one computed table.  This module creates
managers and answers questions about single nodes; questions never change a
manager, so they are plain functions of it.
-/

namespace DecisionDiagram

/-- The two tables, and the budget from which they were reserved. -/
structure Manager where
  table : UniqueTable
  memo : Memo
  budget : Budget

namespace Manager

/-- Reserve both tables from a budget, the unique table first. -/
def create (limit : Nat) (budget : Budget) : Setup Manager := do
  let table ← UniqueTable.ofBudget limit budget.nodeBytes
  let memo ← Memo.ofBudget limit budget.memoBytes
  Setup.record (.created table.capacity memo.capacity)
  pure ⟨table, memo, budget⟩

/-- Whether an id denotes a function: it is a constant or a stored node. -/
def contains (manager : Manager) (ref : Ref) : Bool :=
  ref.isTerminal || (manager.table.node? ref).isSome

def node (manager : Manager) (ref : Ref) : Except Failure Node :=
  match manager.table.node? ref with
  | some node => .ok node
  | none => .error (.violation (.unknownNode ref))

/-- The variable that an id tests first; for constants `terminalVar`. -/
def var (manager : Manager) (ref : Ref) : Except Failure Var :=
  if ref.isTerminal then .ok terminalVar
  else (manager.node ref).map (·.var)

/-- The function that remains when the tested variable is false. -/
def low (manager : Manager) (ref : Ref) : Except Failure Ref :=
  (manager.node ref).map (·.low)

/-- The function that remains when the tested variable is true. -/
def high (manager : Manager) (ref : Ref) : Except Failure Ref :=
  (manager.node ref).map (·.high)

/-- The functions that remain when a variable is false and when it is true.  The
variable must not lie below the one tested first; if it lies above, the function
does not depend on it. -/
def cofactors (manager : Manager) (ref : Ref) (var : Var) : Except Failure (Ref × Ref) :=
  if ref.isTerminal then .ok (ref, ref)
  else
    match manager.node ref with
    | .error failure => .error failure
    | .ok node =>
        if var < node.var then .ok (ref, ref)
        else if node.var < var then .error (.violation (.ordering var node.var))
        else .ok (node.low, node.high)

def describe (manager : Manager) : String :=
  s!"Manager \x7b capacity: {manager.table.capacity}, nodes: {manager.table.size}, " ++
  s!"cache_capacity: {manager.memo.capacity}, cache_hits: {manager.memo.hits}, " ++
  s!"cache_misses: {manager.memo.misses}, cache_faults: {manager.memo.faults} \x7d"

theorem node_eq_ok_iff {manager : Manager} {ref : Ref} {node : Node} :
    manager.node ref = .ok node ↔ manager.table.node? ref = some node := by
  unfold Manager.node
  split <;> simp_all

end Manager
end DecisionDiagram
