import DecisionDiagram.Proofs.Reachable

/-!
# Canonicity

Whatever safe calls are made of a manager, its store stays ordered, reduced and free of
duplicates, and every id keeps its content.  So every id stands for one boolean
function, and two ids stand for the same function only if they are equal: comparing
functions is comparing ids.
-/

namespace DecisionDiagram

/-- A small manager that is told a wrong result, fails three times and ends up full. -/
def Session.misled : Session :=
  fresh.run [.makeVar 1, .makeVar 0, .memo (.remember (.binary .and) [⟨2⟩, ⟨3⟩] ⟨2⟩),
    .apply .and ⟨3⟩ ⟨2⟩, .make terminalVar ⟨2⟩ ⟨3⟩, .apply .xor ⟨3⟩ ⟨2⟩, .make 0 ⟨0⟩ ⟨9⟩,
    .makeVar 7]

theorem Session.reachable_misled : misled.toManager.Reachable Call.isSafe :=
  (reachable_fresh Call.isSafe).run _ (by decide)

/-- The store of a reachable manager is ordered, reduced, closed under branches and
without duplicates; its size counts the ids in use; and no call that may follow, with
whatever arguments and outcome, changes the content of an id. -/
theorem store_of_reachable {manager : Manager} (reachable : manager.Reachable Call.isSafe) :
    (∀ ref node, manager.table.node? ref = some node →
      node.var ≠ terminalVar ∧ node.low ≠ node.high ∧
        ∀ child ∈ [node.low, node.high], manager.contains child = true ∧
          ∀ inner, manager.table.node? child = some inner → node.var < inner.var) ∧
    (∀ left right node, manager.table.node? left = some node →
      manager.table.node? right = some node → left = right) ∧
    manager.table.size = manager.table.published.ncard ∧
    manager.table.size ≤ manager.table.capacity ∧
    ∀ (journal : Journal) (call : Call Ref), call.isSafe = true →
      ∀ ref node, manager.table.node? ref = some node →
        (call.after { manager with journal := journal }).table.node? ref = some node := by
  have wellFormed := reachable.wellFormed
  have searchable := wellFormed.searchable
  refine ⟨?ordered, fun left right node => searchable.ref_unique,
    searchable.ncard_published.symm, searchable.size_le, ?kept⟩
  case ordered =>
    intro ref node content
    have proper := wellFormed.proper_of_node? content
    have branch : ∀ child, manager.table.Follows child node.var →
        manager.contains child = true ∧
          ∀ inner, manager.table.node? child = some inner → node.var < inner.var := by
      intro child follows
      refine ⟨Manager.contains_iff_knows.2 follows.knows, ?_⟩
      intro inner innerContent
      obtain ⟨next, tested, before⟩ := follows
      rw [UniqueTable.var?_of_node? innerContent] at tested
      cases tested
      exact before
    refine ⟨?_, proper.different, ?_⟩
    · intro reserved
      have usable := proper.low_follows.lt_terminalVar
      rw [reserved] at usable
      exact UInt32.lt_irrefl _ usable
    · intro child member
      simp only [List.mem_cons, List.not_mem_nil, or_false] at member
      rcases member with rfl | rfl
      · exact branch _ proper.low_follows
      · exact branch _ proper.high_follows
  case kept =>
    intro journal call safe ref node content
    have grown : (call.after { manager with journal := journal }).table.Extends manager.table :=
      (Call.after_grows safe wellFormed).2
    exact grown.node? content

theorem store_of_misled :
    Session.misled.toManager.Reachable Call.isSafe ∧
      Session.misled.table.published.ncard = 4 ∧
      ((Call.negate ⟨5⟩).after Session.misled).table.node? ⟨5⟩ = some ⟨0, ⟨3⟩, ⟨4⟩⟩ := by
  have store := store_of_reachable Session.reachable_misled
  refine ⟨Session.reachable_misled, ?_, ?_⟩
  · rw [← store.2.2.1]
    decide
  · exact store.2.2.2.2 Session.misled.journal (.negate ⟨5⟩) rfl ⟨5⟩ ⟨0, ⟨3⟩, ⟨4⟩⟩ (by decide)

/-- In a reachable manager the functions of the ids are determined by the store, and
they determine the ids; no decision node stands for a constant. -/
theorem canonical_of_reachable {manager : Manager} (reachable : manager.Reachable Call.isSafe) :
    (∀ value, manager.table.function (.ofBool value) = fun _ => value) ∧
    (∀ ref node, manager.table.node? ref = some node →
      manager.table.function ref = fun assignment =>
        if assignment node.var then manager.table.function node.high assignment
        else manager.table.function node.low assignment) ∧
    (∀ left right, manager.contains left = true → manager.contains right = true →
      (manager.table.function left = manager.table.function right ↔ left = right)) ∧
    ∀ ref node, manager.table.node? ref = some node →
      ∀ value, manager.table.function ref ≠ fun _ => value := by
  have wellFormed := reachable.wellFormed
  refine ⟨wellFormed.function_ofBool, fun ref node => wellFormed.function_of_node?, ?_, ?_⟩
  · intro left right leftKnown rightKnown
    constructor
    · exact wellFormed.ref_eq_of_function_eq (Manager.contains_iff_knows.1 leftKnown)
        (Manager.contains_iff_knows.1 rightKnown)
    · rintro rfl
      rfl
  · intro ref node content value constant
    rw [← wellFormed.function_ofBool value] at constant
    have same := wellFormed.ref_eq_of_function_eq (.inr ⟨node, content⟩)
      (manager.table.knows_ofBool value) constant
    rw [same, manager.table.node?_ofBool] at content
    cases content

theorem canonical_of_misled :
    Session.misled.toManager.Reachable Call.isSafe ∧
      Session.misled.table.function ⟨4⟩ ≠ Session.misled.table.function ⟨5⟩ := by
  have canonical := canonical_of_reachable Session.reachable_misled
  have same := canonical.2.2.1 ⟨4⟩ ⟨5⟩ (by decide) (by decide)
  exact ⟨Session.reachable_misled, fun equal => absurd (same.1 equal) (by decide)⟩

end DecisionDiagram
