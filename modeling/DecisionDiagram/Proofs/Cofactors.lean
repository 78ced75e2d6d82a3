import DecisionDiagram.Proofs.Expansion
import DecisionDiagram.Proofs.Making
import DecisionDiagram.Proofs.Models

/-!
# Cofactors and nodes

Taking a function apart by a variable and making a node of the parts are inverse to each other.
The parts of a function that tests the variable first are the branches of its node, and those of
a function that tests only later variables are the function itself, so that making the node finds
what is there already, on a full store as well.
-/

namespace DecisionDiagram

namespace Manager

variable {manager : Manager} {var : Var} {low high ref : Ref}

/-! ## Taking apart -/

/-- A function can be taken apart by every variable that is not below its first one. -/
theorem exists_cofactors_iff (known : manager.table.Knows ref) :
    (∃ low high, manager.cofactors ref var = .ok (low, high)) ↔
      ref.isTerminal = true ∨ ∃ node, manager.table.node? ref = some node ∧ var ≤ node.var := by
  constructor
  · rintro ⟨low, high, found⟩
    rcases cofactors_cases found with ⟨terminal | follows, _⟩ | content
    · exact .inl terminal
    · refine known.imp_right ?_
      rintro ⟨node, content⟩
      exact ⟨node, content, UInt32.le_of_lt (follows.lt_of_node? content)⟩
    · exact .inr ⟨_, content, UInt32.le_refl var⟩
  · rintro (terminal | ⟨node, content, above⟩)
    · exact ⟨ref, ref, cofactors_of_isTerminal terminal⟩
    · by_cases tested : var = node.var
      · subst tested
        exact ⟨node.low, node.high, cofactors_of_node? content⟩
      · have before := UInt32.lt_of_le_of_ne above tested
        exact ⟨ref, ref, cofactors_of_follows ⟨_, UniqueTable.var?_of_node? content, before⟩⟩

theorem splits_of_cofactors (wellFormed : manager.table.WellFormed) (usable : var ≠ terminalVar)
    (found : manager.cofactors ref var = .ok (low, high)) :
    manager.table.Splits ref var low high := by
  rcases cofactors_cases found with ⟨terminal | follows, rfl, rfl⟩ | content
  · exact (UniqueTable.follows_of_isTerminal terminal usable).splits
  · exact follows.splits
  · exact wellFormed.splits_of_node? content

end Manager

/-- Cofactors fix the variable. -/
theorem UniqueTable.Splits.fixed_eq {table : UniqueTable} {ref low high : Ref} {var : Var}
    (splits : table.Splits ref var low high) (wellFormed : table.WellFormed) (value : Bool) :
    fixed (table.function ref) var value = table.function (if value then high else low) :=
  funext fun _ => splits.function_update wellFormed

/-! ## Putting together -/

namespace Call

variable {session : Session} {var : Var} {low high ref : Ref}

/-- The cofactors of an id by a variable make this id again, however full the store is. -/
theorem make_of_cofactors (wellFormed : session.table.WellFormed)
    (known : session.table.Knows ref) (usable : var ≠ terminalVar)
    (found : session.cofactors ref var = .ok (low, high)) :
    (Call.make var low high).outcome session = .answered (.ref ref) ∧
      ((Call.make var low high).after session).toManager = session.toManager := by
  rcases Manager.cofactors_cases found with ⟨_, rfl, rfl⟩ | content
  · exact make_of_ok (UniqueTable.run_make_self usable known)
  · exact make_of_ok (wellFormed.run_make_of_node? content)

/-- A node that was made has the branches that it was made of as its cofactors. -/
theorem cofactors_of_make (searchable : session.table.Searchable)
    (follows : session.table.Follows low var)
    (answered : (Call.make var low high).outcome session = .answered (.ref ref)) :
    ((Call.make var low high).after session).cofactors ref var = .ok (low, high) := by
  rcases make_cases searchable var low high with
    ⟨made, again, kept, _, inUse⟩ | ⟨slot, again, grown, _, vacant, _⟩ | ⟨failure, failed, _⟩
  · cases answered.symm.trans again
    rw [kept]
    rcases inUse with ⟨rfl, rfl⟩ | content
    · exact Manager.cofactors_of_follows follows
    · exact Manager.cofactors_of_node? content
  · cases answered.symm.trans again
    rw [grown]
    exact Manager.cofactors_of_node? (searchable.mints_occupy vacant).content
  · cases answered.symm.trans failed

end Call

/-- Whatever safe calls were made before: a function can be taken apart by a usable variable
exactly if it tests nothing before it, and then its cofactors fix the variable and make the same
id again, without a change and however full the store is.  Conversely, a node made of functions
that test later variables only is taken apart into these functions. -/
theorem cofactors_of_reachable {session : Session}
    (reachable : session.toManager.Reachable Call.isSafe) (var : Var) :
    (∀ ref, session.contains ref = true → var ≠ terminalVar →
      ((∃ low high, session.cofactors ref var = .ok (low, high)) ↔
        ref.isTerminal = true ∨
          ∃ node, session.table.node? ref = some node ∧ var ≤ node.var) ∧
      ∀ low high, session.cofactors ref var = .ok (low, high) →
        session.contains low = true ∧ session.contains high = true ∧
        session.table.function low = fixed (session.table.function ref) var false ∧
        session.table.function high = fixed (session.table.function ref) var true ∧
        (Call.make var low high).outcome session = .answered (.ref ref) ∧
        ((Call.make var low high).after session).toManager = session.toManager) ∧
    ∀ low high, (∀ child ∈ [low, high], ∃ next, session.var child = .ok next ∧ var < next) →
      ∀ ref, (Call.make var low high).outcome session = .answered (.ref ref) →
        ((Call.make var low high).after session).cofactors ref var = .ok (low, high) := by
  have wellFormed := reachable.wellFormed
  refine ⟨?apart, ?together⟩
  case apart =>
    intro ref contained usable
    have known := Manager.contains_iff_knows.1 contained
    refine ⟨Manager.exists_cofactors_iff known, ?_⟩
    intro low high found
    have splits := Manager.splits_of_cofactors wellFormed usable found
    exact ⟨Manager.contains_iff_knows.2 splits.low_follows.knows,
      Manager.contains_iff_knows.2 splits.high_follows.knows,
      (splits.fixed_eq wellFormed false).symm, (splits.fixed_eq wellFormed true).symm,
      Call.make_of_cofactors wellFormed known usable found⟩
  case together =>
    intro low high after ref answered
    have follows := Manager.follows_iff.2 (after low (by simp))
    exact Call.cofactors_of_make wellFormed.searchable follows answered

/-- A full store makes its own nodes again, by a variable that they test as by an earlier one. -/
theorem cofactors_of_misled :
    Session.misled.toManager.Reachable Call.isSafe ∧
      Session.misled.cofactors ⟨5⟩ 0 = .ok (⟨3⟩, ⟨4⟩) ∧
      Session.misled.table.function ⟨4⟩ = fixed (Session.misled.table.function ⟨5⟩) 0 true ∧
      ((Call.make 0 ⟨3⟩ ⟨4⟩).after Session.misled).toManager = Session.misled.toManager ∧
      (Call.make 0 ⟨3⟩ ⟨3⟩).outcome Session.misled = .answered (.ref ⟨3⟩) ∧
      ((Call.make 0 ⟨3⟩ ⟨3⟩).after Session.misled).cofactors ⟨3⟩ 0 = .ok (⟨3⟩, ⟨3⟩) := by
  obtain ⟨apart, together⟩ := cofactors_of_reachable Session.reachable_misled 0
  have found : Session.misled.cofactors ⟨5⟩ 0 = .ok (⟨3⟩, ⟨4⟩) := by decide +kernel
  have again : (Call.make 0 ⟨3⟩ ⟨3⟩).outcome Session.misled = .answered (.ref ⟨3⟩) := by
    decide +kernel
  have later : ∀ child ∈ [(⟨3⟩ : Ref), ⟨3⟩],
      ∃ next, Session.misled.var child = .ok next ∧ (0 : Var) < next := by
    have tested : Session.misled.var ⟨3⟩ = .ok 1 := by decide +kernel
    simp [tested]
  obtain ⟨_, _, _, high, _, kept⟩ := (apart ⟨5⟩ (by decide) (by decide)).2 ⟨3⟩ ⟨4⟩ found
  exact ⟨Session.reachable_misled, found, high, kept, again, together ⟨3⟩ ⟨3⟩ later ⟨3⟩ again⟩

end DecisionDiagram
