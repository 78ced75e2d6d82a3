import DecisionDiagram.Manager
import DecisionDiagram.Proofs.Search

/-!
# Well-formed stores

A store is well formed when it is searchable and every stored node is proper: its
branches differ, denote something and test later variables only.  Storing a proper
node keeps a store well formed and every id that it had.
-/

namespace DecisionDiagram
namespace UniqueTable

variable {table later : UniqueTable} {node : Node} {ref : Ref} {var next : Var} {slot : Nat}

def Knows (table : UniqueTable) (ref : Ref) : Prop :=
  ref.isTerminal = true ∨ ∃ node, table.node? ref = some node

/-- The variable that an id tests first; for constants `terminalVar`. -/
def var? (table : UniqueTable) (ref : Ref) : Option Var :=
  if ref.isTerminal then some terminalVar else (table.node? ref).map (·.var)

/-- The id is known and tests nothing up to a variable. -/
def Follows (table : UniqueTable) (ref : Ref) (var : Var) : Prop :=
  ∃ next, table.var? ref = some next ∧ var < next

/-- The branches of a node differ and test later variables than the node. -/
structure Proper (table : UniqueTable) (node : Node) : Prop where
  different : node.low ≠ node.high
  low_follows : table.Follows node.low node.var
  high_follows : table.Follows node.high node.var

/-- What every store of a manager satisfies. -/
structure WellFormed (table : UniqueTable) : Prop where
  searchable : table.Searchable
  proper : ∀ (slot : Nat) (node : Node), table.content? slot = some node → table.Proper node

/-- A store that holds whatever another one holds, under the same ids. -/
structure Extends (later earlier : UniqueTable) : Prop where
  capacity_eq : later.capacity = earlier.capacity
  slots : ∀ (slot : Nat) (node : Node),
    earlier.content? slot = some node → later.content? slot = some node

/-! ## Known ids -/

theorem node?_ofBool (table : UniqueTable) (value : Bool) : table.node? (.ofBool value) = none :=
  table.node?_eq_none_of_isTerminal (by cases value <;> rfl)

@[simp] theorem var?_ofBool (table : UniqueTable) (value : Bool) :
    table.var? (.ofBool value) = some terminalVar := by
  cases value <;> rfl

theorem not_isTerminal_of_node? (content : table.node? ref = some node) :
    ref.isTerminal = false := by
  cases terminal : ref.isTerminal
  · rfl
  · simp [table.node?_eq_none_of_isTerminal terminal] at content

theorem var?_of_node? (content : table.node? ref = some node) :
    table.var? ref = some node.var := by
  simp [var?, not_isTerminal_of_node? content, content]

theorem knows_iff_var? : table.Knows ref ↔ ∃ var, table.var? ref = some var := by
  simp only [Knows, var?]
  cases ref.isTerminal
  · simp
  · simp

theorem knows_ofBool (table : UniqueTable) (value : Bool) : table.Knows (.ofBool value) :=
  knows_iff_var?.2 ⟨_, table.var?_ofBool value⟩

/-- A known id is a constant or in use, and never both. -/
theorem Knows.cases (known : table.Knows ref) :
    (∃ value, ref = .ofBool value) ∨ ∃ node, table.node? ref = some node := by
  rcases known with terminal | published
  · left
    rcases Ref.isTerminal_iff.1 terminal with rfl | rfl
    · exact ⟨false, rfl⟩
    · exact ⟨true, rfl⟩
  · exact .inr published

theorem Follows.knows (follows : table.Follows ref var) : table.Knows ref := by
  obtain ⟨next, known, _⟩ := follows
  exact knows_iff_var?.2 ⟨next, known⟩

theorem Follows.lt_terminalVar (follows : table.Follows ref var) : var < terminalVar := by
  obtain ⟨next, _, before⟩ := follows
  exact UInt32.lt_of_lt_of_le before (le_terminalVar next)

theorem Follows.lt_of_node? (follows : table.Follows ref var)
    (content : table.node? ref = some node) : var < node.var := by
  obtain ⟨next, tested, before⟩ := follows
  rw [var?_of_node? content] at tested
  cases tested
  exact before

theorem follows_of_isTerminal (terminal : ref.isTerminal = true) (usable : var ≠ terminalVar) :
    table.Follows ref var :=
  ⟨terminalVar, by simp [var?, terminal], DecisionDiagram.lt_terminalVar usable⟩

/-- An id that tests a usable variable is in use. -/
theorem exists_node?_of_var? (tested : table.var? ref = some next) (usable : next ≠ terminalVar) :
    ∃ node, table.node? ref = some node ∧ node.var = next := by
  rcases (knows_iff_var?.2 ⟨next, tested⟩).cases with ⟨value, rfl⟩ | ⟨node, content⟩
  · rw [var?_ofBool] at tested
    exact absurd (Option.some.inj tested).symm usable
  · rw [var?_of_node? content] at tested
    exact ⟨node, content, Option.some.inj tested⟩

theorem WellFormed.proper_of_node? (wellFormed : table.WellFormed)
    (content : table.node? ref = some node) : table.Proper node := by
  obtain ⟨slot, _, stored⟩ := exists_slot_of_node? content
  exact wellFormed.proper slot node stored

/-! ## Growing stores -/

theorem Extends.refl (table : UniqueTable) : table.Extends table :=
  ⟨rfl, fun _ _ content => content⟩

theorem Extends.trans {middle earlier : UniqueTable} (second : later.Extends middle)
    (first : middle.Extends earlier) : later.Extends earlier :=
  ⟨second.capacity_eq.trans first.capacity_eq,
    fun slot node content => second.slots slot node (first.slots slot node content)⟩

theorem Extends.node? (grown : later.Extends table) (content : table.node? ref = some node) :
    later.node? ref = some node := by
  obtain ⟨slot, slotOf, stored⟩ := exists_slot_of_node? content
  simp only [UniqueTable.node?, slotOf]
  exact grown.slots slot node stored

theorem Extends.var? (grown : later.Extends table) (known : table.var? ref = some var) :
    later.var? ref = some var := by
  simp only [UniqueTable.var?] at known ⊢
  split at known
  case isTrue terminal => simpa [terminal] using known
  case isFalse notTerminal =>
    simp only [notTerminal, Bool.false_eq_true, ↓reduceIte]
    rw [Option.map_eq_some_iff] at known ⊢
    obtain ⟨node, content, equal⟩ := known
    exact ⟨node, grown.node? content, equal⟩

theorem Extends.knows (grown : later.Extends table) (known : table.Knows ref) :
    later.Knows ref := by
  rw [knows_iff_var?] at known ⊢
  obtain ⟨var, equal⟩ := known
  exact ⟨var, grown.var? equal⟩

theorem Extends.follows (grown : later.Extends table) (follows : table.Follows ref var) :
    later.Follows ref var := by
  obtain ⟨next, known, before⟩ := follows
  exact ⟨next, grown.var? known, before⟩

theorem Extends.proper (grown : later.Extends table) (proper : table.Proper node) :
    later.Proper node :=
  ⟨proper.different, grown.follows proper.low_follows, grown.follows proper.high_follows⟩

theorem extends_occupy (vacant : table.content? slot = none) (node : Node) :
    (table.occupy slot node).Extends table :=
  ⟨rfl, fun _ _ content => content?_occupy_of_stored vacant content⟩

theorem wellFormed_empty (capacity : Nat) (capacity_pos : 0 < capacity)
    (capacity_le : capacity ≤ maxCapacity) :
    (empty capacity capacity_pos capacity_le).WellFormed :=
  ⟨searchable_empty capacity capacity_pos capacity_le, by
    intro slot node content
    simp at content⟩

theorem WellFormed.occupy (wellFormed : table.WellFormed) (proper : table.Proper node)
    (vacant : table.probe node = .vacant slot) : (table.occupy slot node).WellFormed := by
  have grown := extends_occupy (content?_of_probeFrom_vacant vacant) node
  refine ⟨wellFormed.searchable.occupy vacant, ?_⟩
  intro index stored content
  rw [content?_occupy] at content
  split at content
  case isTrue =>
    cases content
    exact grown.proper proper
  case isFalse => exact grown.proper (wellFormed.proper index stored content)

/-- Storing a proper node keeps the store well formed, keeps all its ids, and names an
id that now has the content. -/
theorem WellFormed.insert (wellFormed : table.WellFormed) (proper : table.Proper node)
    (inserted : table.insert node = .ok (ref, later)) :
    later.WellFormed ∧ later.Extends table ∧ later.node? ref = some node := by
  rcases wellFormed.searchable.insert_cases node with
    ⟨slot, content, result⟩ | ⟨slot, vacant, _, result⟩ | ⟨_, _, result⟩
  · rw [result] at inserted
    cases inserted
    exact ⟨wellFormed, .refl table, wellFormed.searchable.node?_ofSlot content⟩
  · rw [result] at inserted
    cases inserted
    have kept := wellFormed.occupy proper vacant
    refine ⟨kept, extends_occupy (content?_of_probeFrom_vacant vacant) node, ?_⟩
    exact kept.searchable.node?_ofSlot (by simp [content?_occupy])
  · rw [result] at inserted
    cases inserted

/-- A content that is in use is found under its id, and nothing changes. -/
theorem WellFormed.insert_of_node? (wellFormed : table.WellFormed)
    (content : table.node? ref = some node) : table.insert node = .ok (ref, table) := by
  obtain ⟨slot, slotOf, stored⟩ := exists_slot_of_node? content
  simp only [UniqueTable.insert, wellFormed.searchable.found slot node stored,
    Ref.ofSlot_of_slot? slotOf]

end UniqueTable

/-! ## Questions about known ids -/

namespace Manager

variable {manager : Manager} {ref low high : Ref} {var : Var}

theorem contains_iff_knows : manager.contains ref = true ↔ manager.table.Knows ref := by
  simp only [contains, UniqueTable.Knows, Bool.or_eq_true, Option.isSome_iff_exists]

theorem contains_eq_false_iff : manager.contains ref = false ↔ ¬manager.table.Knows ref := by
  rw [← contains_iff_knows, Bool.not_eq_true]

theorem var_eq (manager : Manager) (ref : Ref) :
    manager.var ref = match manager.table.var? ref with
      | some var => .ok var
      | none => .error (.violation (.unknownNode ref)) := by
  simp only [Manager.var, UniqueTable.var?, Manager.node]
  cases ref.isTerminal
  · cases manager.table.node? ref <;> rfl
  · rfl

theorem node_eq (manager : Manager) (ref : Ref) :
    manager.node ref = match manager.table.node? ref with
      | some node => .ok node
      | none => .error (.violation (.unknownNode ref)) := rfl

theorem follows_iff :
    manager.table.Follows ref var ↔ ∃ next, manager.var ref = .ok next ∧ var < next := by
  simp only [UniqueTable.Follows, var_eq]
  cases manager.table.var? ref <;> simp

/-! ## Cofactors -/

theorem cofactors_of_isTerminal (terminal : ref.isTerminal = true) :
    manager.cofactors ref var = .ok (ref, ref) := by
  simp only [cofactors, terminal, ↓reduceIte]

theorem cofactors_of_follows (follows : manager.table.Follows ref var) :
    manager.cofactors ref var = .ok (ref, ref) := by
  rcases follows.knows with terminal | ⟨node, content⟩
  · exact cofactors_of_isTerminal terminal
  · have decision := UniqueTable.not_isTerminal_of_node? content
    simp only [cofactors, decision, Bool.false_eq_true, ↓reduceIte, Manager.node, content,
      follows.lt_of_node? content]

theorem cofactors_of_node? (content : manager.table.node? ref = some ⟨var, low, high⟩) :
    manager.cofactors ref var = .ok (low, high) := by
  have decision := UniqueTable.not_isTerminal_of_node? content
  simp only [cofactors, decision, Bool.false_eq_true, ↓reduceIte, Manager.node, content,
    UInt32.lt_irrefl]

/-- The cofactors of an id are the id itself, if it is a constant or tests later variables only,
or the branches of its node. -/
theorem cofactors_cases (found : manager.cofactors ref var = .ok (low, high)) :
    ((ref.isTerminal = true ∨ manager.table.Follows ref var) ∧ low = ref ∧ high = ref) ∨
      manager.table.node? ref = some ⟨var, low, high⟩ := by
  simp only [cofactors, node_eq] at found
  split at found
  case isTrue terminal =>
    cases found
    exact .inl ⟨.inl terminal, rfl, rfl⟩
  case isFalse =>
    cases content : manager.table.node? ref with
    | none => simp [content] at found
    | some node =>
        simp only [content] at found
        split at found
        case isTrue before =>
          cases found
          exact .inl ⟨.inr ⟨node.var, UniqueTable.var?_of_node? content, before⟩, rfl, rfl⟩
        case isFalse notBefore =>
          split at found
          case isTrue => cases found
          case isFalse notAfter =>
            cases found
            obtain rfl : node.var = var :=
              UInt32.le_antisymm (UInt32.not_lt.1 notBefore) (UInt32.not_lt.1 notAfter)
            exact .inr rfl

end Manager
end DecisionDiagram
