import DecisionDiagram.UniqueTable
import Mathlib.Data.Set.Card

/-!
# Searching the unique table

A table is searchable when every stored content is found where it is stored, by the
search that starts at its home, and the count agrees with the occupied slots.  The
searches rule out duplicates and slots beyond the capacity, so that the count never
wraps around.  Storing a new content at the vacant slot that its own search met keeps
both: the searches for all other contents end before that slot.
-/

namespace DecisionDiagram
namespace UniqueTable

variable {table : UniqueTable} {node stored : Node} {ref : Ref} {steps start slot index : Nat}

/-- Every stored content is found by its own search, and the occupied slots are counted. -/
structure Searchable (table : UniqueTable) : Prop where
  found : ∀ slot node, table.content? slot = some node → table.probe node = .found slot
  counted : table.size = table.slots.size

def occupy (table : UniqueTable) (slot : Nat) (node : Node) : UniqueTable :=
  { table with
    slots := table.slots.insert slot (.ofNode node)
    count := table.count + 1 }

@[simp] theorem content?_empty (capacity : Nat) (capacity_pos : 0 < capacity)
    (capacity_le : capacity ≤ maxCapacity) (slot : Nat) :
    (empty capacity capacity_pos capacity_le).content? slot = none := by
  simp [empty, content?]

/-- Exactly the occupied slots have a content. -/
theorem mem_keys_iff {slot : Nat} :
    slot ∈ table.slots.keys ↔ ∃ node, table.content? slot = some node := by
  rw [Std.TreeMap.mem_keys, Std.TreeMap.mem_iff_isSome_getElem?, ← Option.isSome_iff_exists,
    content?, Option.isSome_map]

@[simp] theorem capacity_occupy (table : UniqueTable) (slot : Nat) (node : Node) :
    (table.occupy slot node).capacity = table.capacity := rfl

theorem content?_occupy (table : UniqueTable) (slot index : Nat) (node : Node) :
    (table.occupy slot node).content? index =
      if slot = index then some node else table.content? index := by
  simp only [content?, occupy, Std.TreeMap.getElem?_insert, Nat.compare_eq_eq]
  split
  case isTrue => simp
  case isFalse => rfl

theorem content?_occupy_of_stored (vacant : table.content? slot = none)
    (content : table.content? index = some stored) :
    (table.occupy slot node).content? index = some stored := by
  rw [content?_occupy]
  split
  case isTrue same =>
    subst index
    simp [vacant] at content
  case isFalse => exact content

/-! ## What a search meets -/

/-- A search that ends with its content ends there also when a vacant slot was taken. -/
theorem probeFrom_occupy_of_found {sought : Node} (vacant : table.content? slot = none)
    (found : table.probeFrom sought steps start = .found index) :
    (table.occupy slot node).probeFrom sought steps start = .found index := by
  induction steps generalizing start with
  | zero => simp [probeFrom] at found
  | succ steps ih =>
      simp only [probeFrom] at found ⊢
      split at found
      case h_1 => simp at found
      case h_2 content _ equation =>
        rw [content?_occupy_of_stored vacant equation]
        split at found
        case isTrue same => simpa [same] using found
        case isFalse different =>
          simp only [different, ↓reduceIte, capacity_occupy]
          exact ih found

/-- A search that ended at a vacant slot finds its content once it is stored there. -/
theorem probeFrom_occupy_of_vacant
    (vacant : table.probeFrom node steps start = .vacant slot) :
    (table.occupy slot node).probeFrom node steps start = .found slot := by
  have empty : table.content? slot = none := content?_of_probeFrom_vacant vacant
  induction steps generalizing start with
  | zero => simp [probeFrom] at vacant
  | succ steps ih =>
      simp only [probeFrom] at vacant ⊢
      split at vacant
      case h_1 =>
        cases vacant
        simp [content?_occupy]
      case h_2 content _ equation =>
        rw [content?_occupy_of_stored empty equation]
        split at vacant
        case isTrue => simp at vacant
        case isFalse different =>
          simp only [different, ↓reduceIte, capacity_occupy]
          exact ih vacant

/-- A search in vain meets another content in every slot. -/
theorem occupied_of_probeFrom_exhausted (within : start < table.capacity)
    (exhausted : table.probeFrom node steps start = .exhausted) {offset : Nat}
    (reached : offset < steps) :
    ∃ stored, table.content? ((start + offset) % table.capacity) = some stored := by
  induction steps generalizing start offset with
  | zero => omega
  | succ steps ih =>
      simp only [probeFrom] at exhausted
      split at exhausted
      case h_1 => simp at exhausted
      case h_2 content stored equation =>
        split at exhausted
        case isTrue => simp at exhausted
        case isFalse =>
          cases offset with
          | zero => exact ⟨stored, by rwa [Nat.add_zero, Nat.mod_eq_of_lt within]⟩
          | succ offset =>
              have later := ih (Nat.mod_lt _ table.capacity_pos) exhausted
                (Nat.lt_of_succ_lt_succ reached)
              rwa [Nat.mod_add_mod, Nat.add_right_comm] at later

/-- Only a full table makes a search end without a slot. -/
theorem occupied_of_probe_exhausted (exhausted : table.probe node = .exhausted)
    (within : slot < table.capacity) : ∃ stored, table.content? slot = some stored := by
  have home := table.home_lt node
  let offset := (slot + (table.capacity - table.home node)) % table.capacity
  have reached : offset < table.capacity := Nat.mod_lt _ table.capacity_pos
  have arrives : (table.home node + offset) % table.capacity = slot := by
    simp only [offset, Nat.add_mod_mod]
    rw [show table.home node + (slot + (table.capacity - table.home node)) =
      slot + table.capacity by omega, Nat.add_mod_right, Nat.mod_eq_of_lt within]
  have occupied := occupied_of_probeFrom_exhausted home exhausted reached
  rwa [arrives] at occupied

/-- A search that ends at a vacant slot has passed over occupied ones only. -/
theorem exists_offset_of_probeFrom_vacant (within : start < table.capacity)
    (vacant : table.probeFrom node steps start = .vacant slot) :
    ∃ offset < steps, slot = (start + offset) % table.capacity ∧
      ∀ nearer < offset, table.content? ((start + nearer) % table.capacity) ≠ none := by
  induction steps generalizing start with
  | zero => simp [probeFrom] at vacant
  | succ steps ih =>
      simp only [probeFrom] at vacant
      split at vacant
      case h_1 content =>
        cases vacant
        refine ⟨0, Nat.succ_pos steps, ?_, fun nearer before => absurd before (Nat.not_lt_zero _)⟩
        rw [Nat.add_zero, Nat.mod_eq_of_lt within]
      case h_2 content stored equation =>
        split at vacant
        case isTrue => simp at vacant
        case isFalse =>
          have next : (start + 1) % table.capacity < table.capacity :=
            Nat.mod_lt _ table.capacity_pos
          obtain ⟨offset, reached, arrives, passed⟩ := ih next vacant
          have shift : ∀ distance, ((start + 1) % table.capacity + distance) % table.capacity =
              (start + (distance + 1)) % table.capacity := by
            intro distance
            rw [Nat.mod_add_mod, Nat.add_right_comm, Nat.add_assoc]
          refine ⟨offset + 1, Nat.succ_lt_succ reached, by rw [arrives, shift], ?_⟩
          intro nearer before
          cases nearer with
          | zero => simp [Nat.mod_eq_of_lt within, equation]
          | succ nearer =>
              rw [← shift]
              exact passed nearer (Nat.lt_of_succ_lt_succ before)

/-! ## Searchable tables -/

theorem searchable_empty (capacity : Nat) (capacity_pos : 0 < capacity)
    (capacity_le : capacity ≤ maxCapacity) :
    (empty capacity capacity_pos capacity_le).Searchable where
  found slot node content := by simp at content
  counted := rfl

theorem Searchable.lt_capacity (searchable : table.Searchable)
    (content : table.content? slot = some node) : slot < table.capacity :=
  lt_capacity_of_probeFrom (table.home_lt node) (.inl (searchable.found slot node content))

/-- No content is stored twice. -/
theorem Searchable.slot_unique (searchable : table.Searchable)
    (first : table.content? slot = some node) (second : table.content? index = some node) :
    slot = index := by
  have same := (searchable.found slot node first).symm.trans (searchable.found index node second)
  cases same
  rfl

theorem Searchable.size_le (searchable : table.Searchable) : table.size ≤ table.capacity := by
  have within : table.slots.keys ⊆ List.range table.capacity := by
    intro slot occupied
    obtain ⟨node, content⟩ := mem_keys_iff.1 occupied
    exact List.mem_range.2 (searchable.lt_capacity content)
  have count := Std.TreeMap.nodup_keys.length_le_of_subset within
  rwa [Std.TreeMap.length_keys, List.length_range, ← searchable.counted] at count

/-- A table with a vacant slot is not full. -/
theorem Searchable.size_lt_of_vacant (searchable : table.Searchable)
    (within : slot < table.capacity) (vacant : table.content? slot = none) :
    table.size < table.capacity := by
  have elsewhere : table.slots.keys ⊆ (List.range table.capacity).erase slot := by
    intro index occupied
    obtain ⟨node, content⟩ := mem_keys_iff.1 occupied
    have different : index ≠ slot := by
      rintro rfl
      simp [vacant] at content
    rw [List.mem_erase_of_ne different]
    exact List.mem_range.2 (searchable.lt_capacity content)
  have count := Std.TreeMap.nodup_keys.length_le_of_subset elsewhere
  rw [Std.TreeMap.length_keys, List.length_erase_of_mem (List.mem_range.2 within),
    List.length_range, ← searchable.counted] at count
  exact Nat.lt_of_le_pred table.capacity_pos count

theorem size_slots_occupy (vacant : table.content? slot = none) :
    (table.occupy slot node).slots.size = table.slots.size + 1 := by
  have unused : slot ∉ table.slots := by
    rw [← Std.TreeMap.mem_keys, mem_keys_iff, vacant]
    simp
  simp [occupy, Std.TreeMap.size_insert, unused]

/-- A table that is not full has fewer nodes than there are words, so that the count of one
more does not wrap around. -/
theorem Searchable.size_occupy (searchable : table.Searchable)
    (vacant : table.probe node = .vacant slot) :
    (table.occupy slot node).size = table.size + 1 := by
  have room : table.size < table.capacity := searchable.size_lt_of_vacant
    (lt_capacity_of_probeFrom (table.home_lt node) (.inr vacant))
    (content?_of_probeFrom_vacant vacant)
  have bound := table.capacity_le
  have fits : table.size + 1 < UInt64.size := by
    simp only [maxCapacity, UInt64.size] at bound ⊢
    omega
  simp only [size, occupy, UInt64.toNat_add, UInt64.toNat_one] at fits ⊢
  exact Nat.mod_eq_of_lt fits

theorem Searchable.occupy (searchable : table.Searchable)
    (vacant : table.probe node = .vacant slot) : (table.occupy slot node).Searchable where
  found index stored content := by
    rw [content?_occupy] at content
    split at content
    case isTrue same =>
      cases content
      rw [← same]
      exact probeFrom_occupy_of_vacant vacant
    case isFalse =>
      exact probeFrom_occupy_of_found (content?_of_probeFrom_vacant vacant)
        (searchable.found index stored content)
  counted := by
    rw [searchable.size_occupy vacant, searchable.counted,
      size_slots_occupy (content?_of_probeFrom_vacant vacant)]

/-- What storing a content does: nothing but to name its slot if it is stored, to take
the slot at which its search ended if there is one, and to fail if the table is full. -/
theorem Searchable.insert_cases (searchable : table.Searchable) (node : Node) :
    (∃ slot, table.content? slot = some node ∧ table.insert node = .ok (.ofSlot slot, table)) ∨
    (∃ slot, table.probe node = .vacant slot ∧ (∀ index : Nat, table.content? index ≠ some node) ∧
      table.insert node = .ok (.ofSlot slot, table.occupy slot node)) ∨
    (table.probe node = .exhausted ∧ (∀ index : Nat, table.content? index ≠ some node) ∧
      table.insert node = .error (.capacityExhausted table.capacity)) := by
  cases probed : table.probe node with
  | found slot =>
      left
      exact ⟨slot, content?_of_probeFrom_found probed, by simp [insert, probed]⟩
  | vacant slot =>
      right
      left
      refine ⟨slot, rfl, ?_, by simp [insert, probed, UniqueTable.occupy]⟩
      intro index content
      simp [searchable.found index node content] at probed
  | exhausted =>
      right
      right
      refine ⟨rfl, ?_, by simp [insert, probed]⟩
      intro index content
      simp [searchable.found index node content] at probed

/-! ## Ids -/

theorem fits_of_lt_capacity (within : slot < table.capacity) : slot + 2 < 2 ^ 32 := by
  have bound := table.capacity_le
  simp only [maxCapacity] at bound
  omega

theorem node?_ofSlot (within : slot < table.capacity) :
    table.node? (.ofSlot slot) = table.content? slot := by
  simp only [node?, Ref.slot?_ofSlot (fits_of_lt_capacity within)]

theorem exists_slot_of_node? (published : table.node? ref = some node) :
    ∃ slot, ref.slot? = some slot ∧ table.content? slot = some node := by
  simp only [node?] at published
  split at published
  case h_1 => simp at published
  case h_2 slot denotes => exact ⟨slot, denotes, published⟩

theorem Searchable.node?_ofSlot (searchable : table.Searchable)
    (content : table.content? slot = some node) : table.node? (.ofSlot slot) = some node := by
  rw [UniqueTable.node?_ofSlot (searchable.lt_capacity content), content]

/-- No two ids have the same content. -/
theorem Searchable.ref_unique {other : Ref} (searchable : table.Searchable)
    (first : table.node? ref = some node) (second : table.node? other = some node) :
    ref = other := by
  obtain ⟨slot, slotOf, content⟩ := exists_slot_of_node? first
  obtain ⟨index, indexOf, otherContent⟩ := exists_slot_of_node? second
  rw [← Ref.ofSlot_of_slot? slotOf, ← Ref.ofSlot_of_slot? indexOf,
    searchable.slot_unique content otherContent]

def published (table : UniqueTable) : Set Ref :=
  { ref | (table.node? ref).isSome }

theorem Searchable.published_eq (searchable : table.Searchable) :
    table.published = Ref.ofSlot '' (table.slots.keys.toFinset : Set Nat) := by
  ext ref
  simp only [published, Set.mem_ofPred_eq, Set.mem_image, Finset.mem_coe, List.mem_toFinset,
    mem_keys_iff, Option.isSome_iff_exists]
  constructor
  · rintro ⟨node, content⟩
    obtain ⟨slot, slotOf, stored⟩ := exists_slot_of_node? content
    exact ⟨slot, ⟨node, stored⟩, Ref.ofSlot_of_slot? slotOf⟩
  · rintro ⟨slot, ⟨node, stored⟩, rfl⟩
    exact ⟨node, searchable.node?_ofSlot stored⟩

/-- The size counts the ids in use. -/
theorem Searchable.ncard_published (searchable : table.Searchable) :
    table.published.ncard = table.size := by
  have injective : Set.InjOn Ref.ofSlot (table.slots.keys.toFinset : Set Nat) := by
    intro slot occupied index otherOccupied same
    simp only [Finset.mem_coe, List.mem_toFinset, mem_keys_iff] at occupied otherOccupied
    obtain ⟨node, content⟩ := occupied
    obtain ⟨other, otherContent⟩ := otherOccupied
    have slots := congrArg Ref.slot? same
    rw [Ref.slot?_ofSlot (fits_of_lt_capacity (searchable.lt_capacity content)),
      Ref.slot?_ofSlot (fits_of_lt_capacity (searchable.lt_capacity otherContent))] at slots
    exact Option.some.inj slots
  rw [searchable.published_eq, injective.ncard_image, Set.ncard_coe_finset,
    List.toFinset_card_of_nodup Std.TreeMap.nodup_keys, Std.TreeMap.length_keys,
    searchable.counted]

/-- A table that has no slot for a content is full. -/
theorem Searchable.size_eq_of_exhausted (searchable : table.Searchable)
    (exhausted : table.probe node = .exhausted) : table.size = table.capacity := by
  have everywhere : List.range table.capacity ⊆ table.slots.keys := by
    intro slot within
    exact mem_keys_iff.2 (occupied_of_probe_exhausted exhausted (List.mem_range.1 within))
  have count := List.nodup_range.length_le_of_subset everywhere
  rw [Std.TreeMap.length_keys, List.length_range, ← searchable.counted] at count
  exact Nat.le_antisymm searchable.size_le count

def contents (table : UniqueTable) : Set Node :=
  { node | ∃ ref, table.node? ref = some node }

/-- The size counts the contents in use, too. -/
theorem Searchable.ncard_contents (searchable : table.Searchable) :
    table.contents.ncard = table.size := by
  rw [← searchable.ncard_published]
  symm
  apply Set.ncard_congr fun ref inUse => (table.node? ref).get inUse
  · intro ref inUse
    exact ⟨ref, (Option.some_get inUse).symm⟩
  · intro ref other inUse otherInUse same
    exact searchable.ref_unique (Option.some_get inUse).symm
      ((Option.some_get otherInUse).symm.trans (congrArg some same.symm))
  · intro node content
    obtain ⟨ref, content⟩ := content
    exact ⟨ref, Option.isSome_iff_exists.2 ⟨node, content⟩, by simp [content]⟩

end UniqueTable
end DecisionDiagram
