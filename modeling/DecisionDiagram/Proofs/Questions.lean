import DecisionDiagram.Perform

/-!
# Questions about the store alone

Managers with the same store answer alike, whatever they remember, unless they are asked
about the computed table or the budget.  The recursions among the questions are compared
step by step, as they pass their manager on.
-/

namespace DecisionDiagram
namespace Manager

variable {left right : Manager}

theorem node_congr (same : left.table = right.table) (ref : Ref) :
    left.node ref = right.node ref := by
  simp only [Manager.node, same]

theorem var_congr (same : left.table = right.table) (ref : Ref) :
    left.var ref = right.var ref := by
  simp only [Manager.var, node_congr same]

theorem cofactors_congr (same : left.table = right.table) (ref : Ref) (var : Var) :
    left.cofactors ref var = right.cofactors ref var := by
  simp only [Manager.cofactors, node_congr same]

/-! ## Walks -/

theorem walkWithin_congr (same : left.table = right.table) (branches : Node → List Ref)
    (steps : Nat) (queue : List Ref) (seen : Std.TreeSet UInt32) :
    left.walkWithin branches steps queue seen = right.walkWithin branches steps queue seen := by
  induction steps generalizing queue seen with
  | zero => cases queue <;> rfl
  | succ steps ih =>
      cases queue with
      | nil => rfl
      | cons ref queue => simp only [walkWithin, node_congr same, ih]

theorem walk_congr (same : left.table = right.table) (branches : Node → List Ref)
    (roots : List Ref) : left.walk branches roots = right.walk branches roots := by
  simp only [walk, same, walkWithin_congr same]

theorem descendants_congr (same : left.table = right.table) (roots : List Ref) :
    left.descendants roots = right.descendants roots := by
  simp only [descendants, walk_congr same]

/-! ## Texts -/

theorem bracketWithin_congr (same : left.table = right.table) (depth : Nat) (ref : Ref) :
    left.bracketWithin depth ref = right.bracketWithin depth ref := by
  induction depth generalizing ref with
  | zero => rfl
  | succ depth ih => simp only [bracketWithin, node_congr same, ih]

theorem print_congr (same : left.table = right.table) (root : Ref) (name : String) :
    left.print root name = right.print root name := by
  simp only [print, listing, walk_congr same]

/-! ## Models -/

theorem pathWithin_congr (same : left.table = right.table) (steps : Nat) (ref : Ref) :
    left.pathWithin steps ref = right.pathWithin steps ref := by
  induction steps generalizing ref with
  | zero => simp only [pathWithin]
  | succ steps ih =>
      rw [pathWithin, pathWithin]
      simp only [node_congr same, ih]

theorem model?_congr (same : left.table = right.table) (ref : Ref) :
    left.model? ref = right.model? ref := by
  simp only [model?, pathWithin_congr same]

theorem skipped_congr (same : left.table = right.table) (domain : List Var) (here : Nat)
    (branch : Ref) : left.skipped domain here branch = right.skipped domain here branch := by
  simp only [skipped, var_congr same]

theorem countWithin_congr (same : left.table = right.table) (domain : List Var) (depth : Nat)
    (ref : Ref) : left.countWithin domain depth ref = right.countWithin domain depth ref := by
  induction depth generalizing ref with
  | zero => rfl
  | succ depth ih => simp only [countWithin, node_congr same, skipped_congr same, ih]

theorem countModels_congr (same : left.table = right.table) (ref : Ref) (domain : Domain) :
    left.countModels ref domain = right.countModels ref domain := by
  simp only [countModels, countWithin_congr same, var_congr same]

end Manager
end DecisionDiagram
