import DecisionDiagram.Proofs.Connective
import DecisionDiagram.Proofs.Growth

/-!
# Right memories

A key asks for the function that its operator makes of its operands' functions.  A
remembered result is right when the operands and the result are known and the result
stands for that function.  Functions never change under an id, so a right memory stays
right while the store grows, and whatever is forgotten does no harm.
-/

namespace DecisionDiagram

namespace UniqueTable

variable {table later : UniqueTable} {key : Key} {ref : Ref} {diagram : Diagram}
variable {assignment : Assignment} {var next : Var} {value : Bool}

structure Admits (table : UniqueTable) (key : Key) : Prop where
  first : table.Knows key.first
  second : table.Knows key.second
  third : table.Knows key.third

/-- The function that a key asks for. -/
def asked (table : UniqueTable) (key : Key) : Assignment → Bool :=
  fun assignment => key.op.eval (table.function key.first assignment)
    (table.function key.second assignment) (table.function key.third assignment)

/-- The id is the right result for the key. -/
structure Justifies (table : UniqueTable) (key : Key) (result : Ref) : Prop where
  admits : table.Admits key
  knows : table.Knows result
  function_eq : table.function result = table.asked key

/-- The diagram is the right result for the key. -/
structure Denotes (table : UniqueTable) (key : Key) (diagram : Diagram) : Prop where
  admits : table.Admits key
  canonical : diagram.Canonical
  eval_eq : diagram.eval = table.asked key

/-! ## Growing stores -/

theorem Admits.extend (admits : table.Admits key) (grown : later.Extends table) :
    later.Admits key :=
  ⟨grown.knows admits.first, grown.knows admits.second, grown.knows admits.third⟩

theorem WellFormed.asked_extend (wellFormed : table.WellFormed)
    (laterWellFormed : later.WellFormed) (grown : later.Extends table)
    (admits : table.Admits key) : later.asked key = table.asked key := by
  unfold asked
  rw [wellFormed.function_extend laterWellFormed grown admits.first,
    wellFormed.function_extend laterWellFormed grown admits.second,
    wellFormed.function_extend laterWellFormed grown admits.third]

theorem WellFormed.justifies_extend (wellFormed : table.WellFormed)
    (laterWellFormed : later.WellFormed) (grown : later.Extends table)
    (justified : table.Justifies key ref) : later.Justifies key ref := by
  refine ⟨justified.admits.extend grown, grown.knows justified.knows, ?_⟩
  rw [wellFormed.function_extend laterWellFormed grown justified.knows, justified.function_eq,
    wellFormed.asked_extend laterWellFormed grown justified.admits]

theorem WellFormed.denotes_extend (wellFormed : table.WellFormed)
    (laterWellFormed : later.WellFormed) (grown : later.Extends table)
    (denotes : table.Denotes key diagram) : later.Denotes key diagram := by
  refine ⟨denotes.admits.extend grown, denotes.canonical, ?_⟩
  rw [denotes.eval_eq, wellFormed.asked_extend laterWellFormed grown denotes.admits]

/-! ## Ids and diagrams -/

/-- A known id unfolds into the canonical diagram of its function. -/
theorem WellFormed.represents_of_function_eq (wellFormed : table.WellFormed)
    (known : table.Knows ref) (canonical : diagram.Canonical)
    (same : table.function ref = diagram.eval) : table.Represents ref diagram := by
  obtain ⟨unfolded, represents⟩ := wellFormed.exists_represents known
  rw [wellFormed.function_eq represents] at same
  rwa [← (wellFormed.canonical represents).eq_of_eval_eq canonical same]

/-- Both kinds of right results belong together. -/
theorem WellFormed.represents_of_justifies (wellFormed : table.WellFormed)
    (justified : table.Justifies key ref) (denotes : table.Denotes key diagram) :
    table.Represents ref diagram :=
  wellFormed.represents_of_function_eq justified.knows denotes.canonical
    (justified.function_eq.trans denotes.eval_eq.symm)

theorem WellFormed.justifies_of_represents (wellFormed : table.WellFormed)
    (denotes : table.Denotes key diagram) (represents : table.Represents ref diagram) :
    table.Justifies key ref :=
  ⟨denotes.admits, represents.knows, (wellFormed.function_eq represents).trans denotes.eval_eq⟩

/-- The function of a known id depends on usable variables only. -/
theorem WellFormed.function_congr (wellFormed : table.WellFormed) (known : table.Knows ref)
    {left right : Assignment} (agree : ∀ var < terminalVar, left var = right var) :
    table.function ref left = table.function ref right := by
  obtain ⟨diagram, represents⟩ := wellFormed.exists_represents known
  rw [wellFormed.function_eq represents]
  exact (wellFormed.canonical represents).eval_congr fun var _ usable => agree var usable

/-- Every key with known operands has a right result, which may not be stored yet. -/
theorem WellFormed.exists_denotes (wellFormed : table.WellFormed) (admits : table.Admits key) :
    ∃ diagram, table.Denotes key diagram := by
  obtain ⟨diagram, ⟨canonical, same⟩, _⟩ := Diagram.existsUnique_canonical (table.asked key) (by
    intro left right agree
    simp only [asked]
    rw [wellFormed.function_congr admits.first agree,
      wellFormed.function_congr admits.second agree,
      wellFormed.function_congr admits.third agree])
  exact ⟨diagram, admits, canonical, same⟩

/-! ## Splitting by a variable -/

/-- The two ids are the branches of a third for a variable that it tests first or not at
all. -/
structure Splits (table : UniqueTable) (ref : Ref) (var : Var) (low high : Ref) : Prop where
  low_follows : table.Follows low var
  high_follows : table.Follows high var
  function_eq : ∀ assignment, table.function ref assignment =
    if assignment var then table.function high assignment else table.function low assignment

theorem WellFormed.splits_of_node? {node : Node} (wellFormed : table.WellFormed)
    (content : table.node? ref = some node) : table.Splits ref node.var node.low node.high := by
  have proper := wellFormed.proper_of_node? content
  exact ⟨proper.low_follows, proper.high_follows, congrFun (wellFormed.function_of_node? content)⟩

theorem Follows.splits (follows : table.Follows ref var) : table.Splits ref var ref ref :=
  ⟨follows, follows, fun _ => (ite_self _).symm⟩

theorem WellFormed.function_update (wellFormed : table.WellFormed)
    (follows : table.Follows ref var) (before : next ≤ var) :
    table.function ref (Function.update assignment next value) =
      table.function ref assignment := by
  obtain ⟨diagram, represents⟩ := wellFormed.exists_represents follows.knows
  rw [wellFormed.function_eq represents]
  exact (wellFormed.canonical represents).eval_update
    (UInt32.lt_of_le_of_lt before (follows.lt_top represents))

section Splits

variable {op : Operator} {first first0 first1 second second0 second1 third third0 third1 : Ref}

/-- Fixing the variable selects a branch. -/
theorem Splits.function_update {low high : Ref} (splits : table.Splits ref var low high)
    (wellFormed : table.WellFormed) :
    table.function ref (Function.update assignment var value) =
      table.function (if value then high else low) assignment := by
  rw [splits.function_eq, Function.update_self]
  cases value
  · exact wellFormed.function_update splits.low_follows (UInt32.le_refl _)
  · exact wellFormed.function_update splits.high_follows (UInt32.le_refl _)

/-- Earlier variables do not matter. -/
theorem Splits.function_update_of_lt {low high : Ref} (splits : table.Splits ref var low high)
    (wellFormed : table.WellFormed) (before : next < var) :
    table.function ref (Function.update assignment next value) =
      table.function ref assignment := by
  have different : var ≠ next := by
    rintro rfl
    exact UInt32.lt_irrefl _ before
  rw [splits.function_eq, splits.function_eq, Function.update_of_ne different,
    wellFormed.function_update splits.low_follows (UInt32.le_of_lt before),
    wellFormed.function_update splits.high_follows (UInt32.le_of_lt before)]

/-- An operator works branch by branch. -/
theorem WellFormed.denotes_cofactor (wellFormed : table.WellFormed)
    (denotes : table.Denotes ⟨op, first, second, third⟩ diagram)
    (firstSplits : table.Splits first var first0 first1)
    (secondSplits : table.Splits second var second0 second1)
    (thirdSplits : table.Splits third var third0 third1) :
    var ≤ diagram.top ∧
      table.Denotes ⟨op, first0, second0, third0⟩ (diagram.cofactor var false) ∧
      table.Denotes ⟨op, first1, second1, third1⟩ (diagram.cofactor var true) := by
  obtain ⟨_, canonical, same⟩ := denotes
  have above : var ≤ diagram.top := by
    apply canonical.le_top_of_eval_update
    intro other before assignment value
    simp only [same, asked, firstSplits.function_update_of_lt wellFormed before,
      secondSplits.function_update_of_lt wellFormed before,
      thirdSplits.function_update_of_lt wellFormed before]
  have branch : ∀ value assignment, (diagram.cofactor var value).eval assignment =
      op.eval (table.function (if value then first1 else first0) assignment)
        (table.function (if value then second1 else second0) assignment)
        (table.function (if value then third1 else third0) assignment) := by
    intro value assignment
    rw [canonical.eval_cofactor above, same, asked]
    simp only [firstSplits.function_update wellFormed, secondSplits.function_update wellFormed,
      thirdSplits.function_update wellFormed]
  refine ⟨above, ?_, ?_⟩
  · exact ⟨⟨firstSplits.low_follows.knows, secondSplits.low_follows.knows,
      thirdSplits.low_follows.knows⟩, canonical.cofactor var false, funext (branch false)⟩
  · exact ⟨⟨firstSplits.high_follows.knows, secondSplits.high_follows.knows,
      thirdSplits.high_follows.knows⟩, canonical.cofactor var true, funext (branch true)⟩

end Splits
end UniqueTable

/-! ## Sound managers -/

namespace Manager

variable {manager : Manager} {key : Key} {ref : Ref}

/-- The store is well formed and everything remembered is right. -/
structure Sound (manager : Manager) : Prop where
  wellFormed : manager.table.WellFormed
  remembers : ∀ (index : Nat) (entry : Memo.Entry), manager.memo.entries[index]? = some entry →
    manager.table.Justifies entry.key entry.result

/-- A result that is recalled is right. -/
theorem Sound.justifies (sound : manager.Sound) (found : manager.memo.find? key = some ref) :
    manager.table.Justifies key ref := by
  simp only [Memo.find?] at found
  split at found
  case h_1 => cases found
  case h_2 entry stored =>
    split at found
    case isTrue same =>
      cases found
      rw [← same]
      exact sound.remembers _ entry stored
    case isFalse => cases found

theorem Sound.grow {table : UniqueTable} (sound : manager.Sound) (wellFormed : table.WellFormed)
    (grown : table.Extends manager.table) : Sound { manager with table := table } :=
  ⟨wellFormed, fun index entry stored =>
    sound.wellFormed.justifies_extend wellFormed grown (sound.remembers index entry stored)⟩

/-- Forgetting does no harm, nor does counting. -/
theorem Sound.forget {memo : Memo} (sound : manager.Sound)
    (fewer : ∀ (index : Nat) (entry : Memo.Entry), memo.entries[index]? = some entry →
      manager.memo.entries[index]? = some entry) : Sound { manager with memo := memo } :=
  ⟨sound.wellFormed, fun index entry stored =>
    sound.remembers index entry (fewer index entry stored)⟩

theorem Sound.count (sound : manager.Sound) (key : Key) :
    Sound { manager with memo := manager.memo.count key } := by
  apply sound.forget
  intro index entry stored
  rwa [Memo.entries_count] at stored

theorem Sound.remember (sound : manager.Sound) (justified : manager.table.Justifies key ref) :
    Sound { manager with memo := manager.memo.remember key ref } := by
  refine ⟨sound.wellFormed, ?_⟩
  intro index entry stored
  simp only [Memo.entries_remember, Std.TreeMap.getElem?_insert, Nat.compare_eq_eq] at stored
  split at stored
  case isTrue =>
    cases stored
    exact justified
  case isFalse => exact sound.remembers index entry stored

theorem sound_of_entries_eq_empty (wellFormed : manager.table.WellFormed)
    (nothing : manager.memo.entries = ∅) : manager.Sound := by
  refine ⟨wellFormed, ?_⟩
  intro index entry stored
  simp [nothing] at stored

end Manager
end DecisionDiagram
