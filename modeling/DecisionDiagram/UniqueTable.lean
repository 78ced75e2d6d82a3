import DecisionDiagram.Budget
import DecisionDiagram.Node
import DecisionDiagram.Setup
import Std.Data.TreeMap

/-!
# The unique table

The unique table stores every node content once and thereby gives it an id: the
number of its slot.  A content is looked for from the slot that its hash selects
onward, in cyclic order; the first vacant slot on the way shows that it is new and
takes it.  Slots are never vacated, so ids stay valid and all slots between the
selected one and the one that holds a content stay occupied.

Only occupied slots take memory: the table is a finite map from slot numbers to
contents, together with the number of slots that it stands for.  The occupied slots
are counted apart from the map, one by one as they are taken.
-/

namespace DecisionDiagram

/-- The most slots whose ids fit into 32 bits, the two constants set apart. -/
def maxCapacity : Nat := 4294967293

/-- What an occupied slot holds: a node, with both of its branches in one word. -/
structure UniqueTable.Slot where
  var : Var
  branches : UInt64
  deriving DecidableEq, Repr

/-- A fixed number of slots, some of which hold a node. -/
structure UniqueTable where
  /-- The number of slots. -/
  capacity : Nat
  /-- The occupied slots. -/
  slots : Std.TreeMap Nat UniqueTable.Slot
  /-- How often a slot was taken. -/
  count : UInt64
  capacity_pos : 0 < capacity
  capacity_le : capacity ≤ maxCapacity

namespace UniqueTable

namespace Slot

def ofNode (node : Node) : Slot :=
  ⟨node.var, node.branches⟩

def node (slot : Slot) : Node :=
  .ofBranches slot.var slot.branches

@[simp] theorem node_ofNode (node : Node) : (ofNode node).node = node :=
  node.ofBranches_branches

end Slot

/-- What a search along the slots ended with. -/
inductive Probe where
  /-- The slot that holds the content. -/
  | found (slot : Nat)
  /-- A vacant slot, before the content was met. -/
  | vacant (slot : Nat)
  /-- Every slot holds another content. -/
  | exhausted
  deriving DecidableEq, Repr

def empty (capacity : Nat) (capacity_pos : 0 < capacity) (capacity_le : capacity ≤ maxCapacity) :
    UniqueTable :=
  ⟨capacity, ∅, 0, capacity_pos, capacity_le⟩

/-- The content of a slot, if it is occupied. -/
def content? (table : UniqueTable) (slot : Nat) : Option Node :=
  table.slots[slot]?.map Slot.node

/-- The slot at which the search for a content starts. -/
def home (table : UniqueTable) (node : Node) : Nat :=
  node.hash.toNat % table.capacity

/-- Search for a content along that many slots, from a given slot on. -/
def probeFrom (table : UniqueTable) (node : Node) : (steps slot : Nat) → Probe
  | 0, _ => .exhausted
  | steps + 1, slot =>
      match table.content? slot with
      | none => .vacant slot
      | some stored =>
          if stored = node then .found slot
          else table.probeFrom node steps ((slot + 1) % table.capacity)

def probe (table : UniqueTable) (node : Node) : Probe :=
  table.probeFrom node table.capacity (table.home node)

/-- The id of a content and the table in which it is stored: the given table if the
content was known, else the given table with one more slot occupied. -/
def insert (table : UniqueTable) (node : Node) : Except Error (Ref × UniqueTable) :=
  match table.probe node with
  | .found slot => .ok (.ofSlot slot, table)
  | .vacant slot =>
      .ok (.ofSlot slot, { table with
        slots := table.slots.insert slot (.ofNode node)
        count := table.count + 1 })
  | .exhausted => .error (.capacityExhausted table.capacity)

def node? (table : UniqueTable) (ref : Ref) : Option Node :=
  match ref.slot? with
  | none => none
  | some slot => table.content? slot

/-- The number of slots counted as occupied. -/
def size (table : UniqueTable) : Nat :=
  table.count.toNat

/-- All ids in use with their contents, in ascending order. -/
def toList (table : UniqueTable) : List (Ref × Node) :=
  table.slots.toList.map fun (slot, held) => (.ofSlot slot, held.node)

/-- Reserve a table of exactly that many slots. -/
def withCapacity (limit capacity : Nat) : Setup UniqueTable :=
  let bytes := (UInt64.ofNatClamp (capacity * slotBytes)).toNat
  if supported : 0 < capacity ∧ capacity ≤ maxCapacity then do
    Setup.reserve limit .uniqueTable bytes
    Setup.record (.tableAllocated capacity bytes)
    pure (empty capacity supported.1 supported.2)
  else
    throw (.error (.allocationFailure .uniqueTable bytes))

/-- Reserve a table with as many slots as some bytes pay for, at most `maxCapacity`. -/
def ofBudget (limit : Nat) (bytes : UInt64) : Setup UniqueTable := do
  let paid := (bytes / .ofNat slotBytes).toNat
  if maxCapacity < paid then
    Setup.record (.nodesClamped bytes.toNat maxCapacity)
    withCapacity limit maxCapacity
  else if paid = 0 then
    throw (.error (.allocationFailure .uniqueTable bytes.toNat))
  else
    withCapacity limit paid

/-- The constants are not stored. -/
theorem node?_eq_none_of_isTerminal (table : UniqueTable) {ref : Ref}
    (terminal : ref.isTerminal = true) : table.node? ref = none := by
  simp [node?, Ref.slot?, terminal]

theorem home_lt (table : UniqueTable) (node : Node) : table.home node < table.capacity :=
  Nat.mod_lt _ table.capacity_pos

/-- A search that finds its content names a slot that holds it. -/
theorem content?_of_probeFrom_found {table : UniqueTable} {node : Node} {steps start slot : Nat}
    (found : table.probeFrom node steps start = .found slot) :
    table.content? slot = some node := by
  induction steps generalizing start with
  | zero => simp [probeFrom] at found
  | succ steps ih =>
      simp only [probeFrom] at found
      split at found
      · simp at found
      · case h_2 stored content =>
        split at found
        case isTrue same =>
          cases found
          rw [content, same]
        case isFalse => exact ih found

/-- A search that ends at a vacant slot names a slot that holds nothing. -/
theorem content?_of_probeFrom_vacant {table : UniqueTable} {node : Node} {steps start slot : Nat}
    (vacant : table.probeFrom node steps start = .vacant slot) :
    table.content? slot = none := by
  induction steps generalizing start with
  | zero => simp [probeFrom] at vacant
  | succ steps ih =>
      simp only [probeFrom] at vacant
      split at vacant
      · case h_1 content =>
        cases vacant
        exact content
      · split at vacant
        · simp at vacant
        · exact ih vacant

/-- A search that starts within the table stays within it. -/
theorem lt_capacity_of_probeFrom {table : UniqueTable} {node : Node} {steps start slot : Nat}
    (within : start < table.capacity)
    (ended : table.probeFrom node steps start = .found slot ∨
      table.probeFrom node steps start = .vacant slot) :
    slot < table.capacity := by
  induction steps generalizing start with
  | zero => simp [probeFrom] at ended
  | succ steps ih =>
      simp only [probeFrom] at ended
      split at ended
      · simp_all
      · split at ended
        · simp_all
        · exact ih (Nat.mod_lt _ table.capacity_pos) ended

end UniqueTable
end DecisionDiagram
