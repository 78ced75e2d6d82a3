import DecisionDiagram.Proofs.Issuing
import Mathlib.Data.Finset.Sort

/-!
# Which slots are occupied

A new content takes the first vacant slot of the circuit that starts at its home.  If two
contents compete for a slot, the one that comes late goes on to the next vacant slot of the
circuit, and this is the same slot for both.  So the two may change places, but the slots that they
occupy do not depend on which of them comes first.
-/

namespace DecisionDiagram

/-! ## Claiming slots -/

section Claiming

variable {capacity home other slot : Nat} {before after : List Nat} {occupied : Finset Nat}

/-- All slots, in the order in which a search that starts at a home meets them. -/
def circuit (capacity home : Nat) : List Nat :=
  (List.range capacity).rotate home

/-- The occupied slots after one more content with that home. -/
def claim (capacity home : Nat) (occupied : Finset Nat) : Finset Nat :=
  match (circuit capacity home).find? (· ∉ occupied) with
  | some slot => insert slot occupied
  | none => occupied

theorem mem_circuit : slot ∈ circuit capacity home ↔ slot < capacity := by
  rw [circuit, List.mem_rotate, List.mem_range]

@[simp] theorem length_circuit (capacity home : Nat) :
    (circuit capacity home).length = capacity := by
  rw [circuit, List.length_rotate, List.length_range]

theorem getElem_circuit {offset : Nat} (reached : offset < (circuit capacity home).length) :
    (circuit capacity home)[offset] = (home + offset) % capacity := by
  simp [circuit, List.getElem_rotate, Nat.add_comm]

theorem circuit_mod (capacity home : Nat) :
    circuit capacity (home % capacity) = circuit capacity home := by
  simpa only [circuit, List.length_range] using List.rotate_mod (List.range capacity) home

/-- A circuit that starts at a slot on the way goes on in the same order. -/
theorem circuit_eq_of_append (split : circuit capacity home = before ++ slot :: after) :
    circuit capacity slot = slot :: after ++ before := by
  have turned : circuit capacity (home + before.length) = slot :: after ++ before := by
    rw [circuit, ← List.rotate_rotate, ← circuit, split, List.rotate_append_length_eq]
  have first : slot = (home + before.length) % capacity := by
    rw [← Nat.add_zero (home + before.length), ← getElem_circuit (by simp [turned])]
    simp [turned]
  rw [first, circuit_mod, turned, ← first]

theorem claim_of_find? (found : (circuit capacity home).find? (· ∉ occupied) = some slot) :
    claim capacity home occupied = insert slot occupied := by
  rw [claim, found]

/-- Where no slot is left, nothing changes. -/
theorem claim_of_full (full : ∀ slot < capacity, slot ∈ occupied) :
    claim capacity home occupied = occupied := by
  have none : (circuit capacity home).find? (· ∉ occupied) = none := by
    simpa [List.find?_eq_none, mem_circuit] using full
  rw [claim, none]

/-- Where a slot is left, every circuit leads to one. -/
theorem exists_find?_circuit (room : ¬∀ slot < capacity, slot ∈ occupied) (home : Nat) :
    ∃ slot, (circuit capacity home).find? (· ∉ occupied) = some slot := by
  rw [← Option.isSome_iff_exists, List.find?_isSome]
  simpa [mem_circuit] using room

theorem find?_circuit_eq_some_iff :
    (circuit capacity home).find? (· ∉ occupied) = some slot ↔
      slot ∉ occupied ∧ ∃ before after, circuit capacity home = before ++ slot :: after ∧
        ∀ nearer ∈ before, nearer ∈ occupied := by
  simp [List.find?_eq_some_iff_append]

/-- Another slot may be occupied before without any difference. -/
theorem find?_circuit_insert_of_ne
    (found : (circuit capacity home).find? (· ∉ occupied) = some slot) (different : slot ≠ other) :
    (circuit capacity home).find? (· ∉ insert other occupied) = some slot := by
  rw [find?_circuit_eq_some_iff] at found ⊢
  obtain ⟨vacant, before, after, split, passed⟩ := found
  refine ⟨by simp [different, vacant], before, after, split, fun nearer member => ?_⟩
  exact Finset.mem_insert_of_mem (passed nearer member)

/-- Once the slot is occupied that a search would have ended at, it ends where a search that
starts at this slot ends. -/
theorem find?_circuit_insert_self
    (found : (circuit capacity home).find? (· ∉ occupied) = some slot) :
    (circuit capacity home).find? (· ∉ insert slot occupied) =
      (circuit capacity slot).find? (· ∉ insert slot occupied) := by
  obtain ⟨_, before, after, split, passed⟩ := find?_circuit_eq_some_iff.1 found
  have nothing : before.find? (· ∉ insert slot occupied) = none := by
    rw [List.find?_eq_none]
    intro nearer member
    simp [passed nearer member]
  rw [circuit_eq_of_append split, split, List.find?_append, List.find?_append, nothing,
    Option.none_or, Option.or_none]

/-- A claim takes one more slot, if there is one. -/
theorem card_claim (within : occupied ⊆ Finset.range capacity) :
    claim capacity home occupied ⊆ Finset.range capacity ∧
      (claim capacity home occupied).card = min (occupied.card + 1) capacity := by
  by_cases full : ∀ slot < capacity, slot ∈ occupied
  case pos =>
    have everything : occupied = Finset.range capacity :=
      within.antisymm fun slot member => full slot (Finset.mem_range.1 member)
    rw [claim_of_full full, everything, Finset.card_range]
    exact ⟨Finset.Subset.refl _, (Nat.min_eq_right (Nat.le_succ capacity)).symm⟩
  case neg =>
    obtain ⟨slot, found⟩ := exists_find?_circuit full home
    have vacant := (find?_circuit_eq_some_iff.1 found).1
    have slotWithin := mem_circuit.1 (List.mem_of_find?_eq_some found)
    have inside : insert slot occupied ⊆ Finset.range capacity :=
      Finset.insert_subset (Finset.mem_range.2 slotWithin) within
    have room := Finset.card_le_card inside
    rw [Finset.card_insert_of_notMem vacant, Finset.card_range] at room
    rw [claim_of_find? found, Finset.card_insert_of_notMem vacant]
    exact ⟨inside, (Nat.min_eq_left room).symm⟩

/-- Two contents occupy the same slots in either order. -/
theorem claim_comm (capacity home other : Nat) (occupied : Finset Nat) :
    claim capacity home (claim capacity other occupied) =
      claim capacity other (claim capacity home occupied) := by
  by_cases full : ∀ slot < capacity, slot ∈ occupied
  case pos => rw [claim_of_full full, claim_of_full full, claim_of_full full]
  case neg =>
    obtain ⟨slot, found⟩ := exists_find?_circuit full home
    obtain ⟨rival, otherFound⟩ := exists_find?_circuit full other
    rw [claim_of_find? found, claim_of_find? otherFound]
    by_cases compete : slot = rival
    case pos =>
      subst rival
      rw [claim, claim, find?_circuit_insert_self found, find?_circuit_insert_self otherFound]
    case neg =>
      rw [claim_of_find? (find?_circuit_insert_of_ne found compete),
        claim_of_find? (find?_circuit_insert_of_ne otherFound (Ne.symm compete)),
        Finset.insert_comm]

instance (capacity : Nat) : LeftCommutative (claim capacity) := ⟨claim_comm capacity⟩

end Claiming

/-- The slots that some contents claim in a table of their own, one after the other. -/
def claimed (capacity : Nat) (contents : Finset Node) : Finset Nat :=
  (contents.val.map fun node => node.hash.toNat % capacity).foldr (claim capacity) ∅

theorem claimed_insert {capacity : Nat} {contents : Finset Node} {node : Node}
    (new : node ∉ contents) :
    claimed capacity (insert node contents) =
      claim capacity (node.hash.toNat % capacity) (claimed capacity contents) := by
  rw [claimed, Finset.insert_val_of_notMem new, Multiset.map_cons, Multiset.foldr_cons, claimed]

/-- Every content claims a slot of its own, as long as there are any. -/
theorem card_claimed (capacity : Nat) (contents : Finset Node) :
    claimed capacity contents ⊆ Finset.range capacity ∧
      (claimed capacity contents).card = min contents.card capacity := by
  induction contents using Finset.induction_on with
  | empty => simp [claimed]
  | insert node contents new ih =>
      obtain ⟨within, count⟩ := ih
      obtain ⟨laterWithin, laterCount⟩ := card_claim within
      rw [claimed_insert new, laterCount, count, Finset.card_insert_of_notMem new]
      exact ⟨laterWithin, by omega⟩

/-! ## Occupied slots of a table -/

namespace UniqueTable

variable {table : UniqueTable} {node asked : Node} {slot : Nat} {contents : Finset Node}

/-- The slots that hold a content. -/
def occupied (table : UniqueTable) : Finset Nat :=
  table.slots.keys.toFinset

theorem mem_occupied : slot ∈ table.occupied ↔ ∃ node, table.content? slot = some node := by
  rw [occupied, List.mem_toFinset, mem_keys_iff]

theorem Searchable.card_occupied (searchable : table.Searchable) :
    table.occupied.card = table.size := by
  rw [occupied, List.toFinset_card_of_nodup Std.TreeMap.nodup_keys, Std.TreeMap.length_keys,
    searchable.counted]

theorem occupied_occupy (table : UniqueTable) (slot : Nat) (node : Node) :
    (table.occupy slot node).occupied = Insert.insert slot table.occupied := by
  ext index
  rw [mem_occupied, Finset.mem_insert, mem_occupied, content?_occupy]
  split
  case isTrue same => simp [same]
  case isFalse different => simp [Ne.symm different]

theorem keys_eq_sort (table : UniqueTable) :
    table.slots.keys = table.occupied.sort (· ≤ ·) := by
  refine ((List.toFinset_sort _ Std.TreeMap.nodup_keys).2 ?_).symm
  exact Std.TreeMap.ordered_keys.imp fun before => Nat.le_of_lt (Nat.compare_eq_lt.1 before)

theorem Searchable.mem_occupied_of_full (searchable : table.Searchable)
    (full : table.size = table.capacity) (within : slot < table.capacity) :
    slot ∈ table.occupied := by
  by_contra vacant
  have nothing : table.content? slot = none := by
    rw [mem_occupied, ← Option.ne_none_iff_exists', not_not] at vacant
    exact vacant
  exact absurd full (Nat.ne_of_lt (searchable.size_lt_of_vacant within nothing))

/-- A search that ends at a vacant slot has found the first one on the circuit from its home. -/
theorem find?_circuit_of_vacant (vacant : table.probe node = .vacant slot) :
    (circuit table.capacity (table.home node)).find? (· ∉ table.occupied) = some slot := by
  obtain ⟨offset, reached, arrives, passed⟩ :=
    exists_offset_of_probeFrom_vacant (table.home_lt node) vacant
  have nothing := content?_of_probeFrom_vacant vacant
  rw [List.find?_eq_some_iff_getElem]
  refine ⟨by simp [mem_occupied, nothing], offset, by simpa using reached, ?_, ?_⟩
  · rw [getElem_circuit, arrives]
  · intro nearer before
    rw [getElem_circuit]
    simpa [mem_occupied, Option.ne_none_iff_exists'] using passed nearer before

/-- The table holds nothing that it was not asked for, and everything as long as there is room;
and the slots that it occupies are claimed by all that it was asked for. -/
structure Settled (table : UniqueTable) (contents : Finset Node) : Prop where
  searchable : table.Searchable
  mem_of_held : ∀ ref node, table.node? ref = some node → node ∈ contents
  held_of_room : table.size < table.capacity → ∀ node ∈ contents,
    ∃ ref, table.node? ref = some node
  occupied_eq : table.occupied = claimed table.capacity contents

/-- A content that was refused before is refused again, and claims nothing either time. -/
theorem Settled.request (settled : table.Settled contents) (asked : Node) :
    (finalState ((UniqueTable.request asked).run table)).Settled
      (Insert.insert asked contents) := by
  have searchable := settled.searchable
  rcases searchable.run_request_cases asked with
    ⟨ref, content, run⟩ | ⟨slot, vacant, unused, run⟩ | ⟨full, unused, run⟩
  case inl =>
    rw [run, Finset.insert_eq_of_mem (settled.mem_of_held ref asked content)]
    exact settled
  case inr.inl =>
    have within := lt_capacity_of_probeFrom (table.home_lt asked) (.inr vacant)
    have held := settled.held_of_room
      (searchable.size_lt_of_vacant within (content?_of_probeFrom_vacant vacant))
    have new : asked ∉ contents := by
      intro member
      obtain ⟨ref, content⟩ := held asked member
      exact unused ref content
    have inUse := fun ref node => @Searchable.node?_request table node ref searchable asked
    simp only [run, finalState] at inUse ⊢
    refine ⟨searchable.occupy vacant, ?contents, ?room, ?slots⟩
    case contents =>
      intro ref node content
      rcases (inUse ref node).1 content with before | ⟨rfl, _⟩
      · exact Finset.mem_insert_of_mem (settled.mem_of_held ref node before)
      · exact Finset.mem_insert_self asked contents
    case room =>
      intro _ node member
      rcases Finset.mem_insert.1 member with rfl | member
      · exact ⟨.ofSlot slot, (inUse _ _).2 (.inr ⟨rfl, _, rfl⟩)⟩
      · obtain ⟨ref, content⟩ := held node member
        exact ⟨ref, (inUse ref node).2 (.inl content)⟩
    case slots =>
      rw [occupied_occupy, capacity_occupy, claimed_insert new, ← settled.occupied_eq]
      exact (claim_of_find? (find?_circuit_of_vacant vacant)).symm
  case inr.inr =>
    simp only [run, finalState]
    refine ⟨searchable, ?contents, fun room => absurd full (Nat.ne_of_lt room), ?slots⟩
    case contents =>
      intro ref node content
      exact Finset.mem_insert_of_mem (settled.mem_of_held ref node content)
    case slots =>
      by_cases member : asked ∈ contents
      · rw [Finset.insert_eq_of_mem member, settled.occupied_eq]
      · rw [claimed_insert member, ← settled.occupied_eq, claim_of_full]
        exact fun slot within => searchable.mem_occupied_of_full full within

theorem Settled.serve (settled : table.Settled contents) (nodes : List Node) :
    (table.serve nodes).Settled (contents ∪ nodes.toFinset) := by
  induction nodes generalizing table contents with
  | nil => simpa [UniqueTable.serve] using settled
  | cons asked rest ih =>
      have later := ih (settled.request asked)
      rwa [Finset.insert_union, ← Finset.union_insert, ← List.toFinset_cons] at later

theorem node?_empty (capacity : Nat) (capacity_pos : 0 < capacity)
    (capacity_le : capacity ≤ maxCapacity) (ref : Ref) :
    (empty capacity capacity_pos capacity_le).node? ref = none := by
  rw [node?]
  split
  case h_1 => rfl
  case h_2 => exact content?_empty capacity capacity_pos capacity_le _

theorem settled_empty (capacity : Nat) (capacity_pos : 0 < capacity)
    (capacity_le : capacity ≤ maxCapacity) :
    (empty capacity capacity_pos capacity_le).Settled ∅ where
  searchable := searchable_empty capacity capacity_pos capacity_le
  mem_of_held := by simp [node?_empty]
  held_of_room := by simp
  occupied_eq := by
    ext slot
    simp [mem_occupied, claimed]

/-- What a new table occupies after some requests is claimed by the contents asked for. -/
theorem occupied_serve_empty {capacity : Nat} (capacity_pos : 0 < capacity)
    (capacity_le : capacity ≤ maxCapacity) (nodes : List Node) :
    ((empty capacity capacity_pos capacity_le).serve nodes).occupied =
      claimed capacity nodes.toFinset := by
  have start := settled_empty capacity capacity_pos capacity_le
  obtain ⟨_, sameCapacity, _⟩ :=
    start.searchable.serve (node?_empty capacity capacity_pos capacity_le) nodes
  rw [(start.serve nodes).occupied_eq, sameCapacity, Finset.empty_union]
  rfl

theorem map_fst_toList (table : UniqueTable) :
    table.toList.map Prod.fst = table.slots.keys.map .ofSlot := by
  rw [toList, List.map_map, ← Std.TreeMap.map_fst_toList_eq_keys, List.map_map]
  rfl

/-- A new table that is asked for the same contents occupies the same slots, whatever the order of
the requests, however often each is made, and even if there are more contents than slots.  So it
issues the same ids: one for each content, as long as there are slots. -/
theorem occupied_of_serve {capacity : Nat} (capacity_pos : 0 < capacity)
    (capacity_le : capacity ≤ maxCapacity) {nodes others : List Node}
    (same : ∀ node, node ∈ nodes ↔ node ∈ others) :
    let table := (empty capacity capacity_pos capacity_le).serve nodes
    let other := (empty capacity capacity_pos capacity_le).serve others
    (∀ slot, (table.content? slot).isSome = (other.content? slot).isSome) ∧
      table.toList.map Prod.fst = other.toList.map Prod.fst ∧ table.size = other.size ∧
      table.size = min nodes.toFinset.card capacity := by
  intro table other
  have searchable : ∀ requests : List Node,
      ((empty capacity capacity_pos capacity_le).serve requests).Searchable := fun requests =>
    ((settled_empty capacity capacity_pos capacity_le).serve requests).searchable
  have slots : table.occupied = claimed capacity nodes.toFinset :=
    occupied_serve_empty capacity_pos capacity_le nodes
  have sameSlots : table.occupied = other.occupied := by
    have sameContents : nodes.toFinset = others.toFinset := by
      ext node
      rw [List.mem_toFinset, List.mem_toFinset, same]
    rw [slots, sameContents, occupied_serve_empty]
  refine ⟨fun slot => ?_, ?_, ?_, ?_⟩
  · rw [Bool.eq_iff_iff, Option.isSome_iff_exists, ← mem_occupied, sameSlots, mem_occupied,
      Option.isSome_iff_exists]
  · rw [map_fst_toList, keys_eq_sort, sameSlots, ← keys_eq_sort, ← map_fst_toList]
  · rw [← (searchable nodes).card_occupied, sameSlots, (searchable others).card_occupied]
  · rw [← (searchable nodes).card_occupied, slots, (card_claimed capacity nodes.toFinset).2]

/-- Three contents that compete for slots.  In another order each of them is stored elsewhere,
but the first of the four slots is the vacant one again. -/
theorem occupied_of_serve_three :
    let table := (empty 4 (by decide) (by decide)).serve
      [⟨1, ⟨0⟩, ⟨1⟩⟩, ⟨7, ⟨9⟩, ⟨9⟩⟩, ⟨5, ⟨2⟩, ⟨3⟩⟩]
    let other := (empty 4 (by decide) (by decide)).serve
      [⟨7, ⟨9⟩, ⟨9⟩⟩, ⟨5, ⟨2⟩, ⟨3⟩⟩, ⟨7, ⟨9⟩, ⟨9⟩⟩, ⟨1, ⟨0⟩, ⟨1⟩⟩]
    (∀ slot ∈ [1, 2, 3], table.content? slot ≠ other.content? slot) ∧
      (∀ slot, (table.content? slot).isSome = (other.content? slot).isSome) ∧
      table.toList.map Prod.fst = other.toList.map Prod.fst ∧ table.size = other.size ∧
      table.size = 3 := by
  have same : ∀ node : Node, node ∈ [⟨1, ⟨0⟩, ⟨1⟩⟩, ⟨7, ⟨9⟩, ⟨9⟩⟩, ⟨5, ⟨2⟩, ⟨3⟩⟩] ↔
      node ∈ [⟨7, ⟨9⟩, ⟨9⟩⟩, ⟨5, ⟨2⟩, ⟨3⟩⟩, ⟨7, ⟨9⟩, ⟨9⟩⟩, ⟨1, ⟨0⟩, ⟨1⟩⟩] := by
    intro node
    simp only [List.mem_cons]
    tauto
  obtain ⟨slots, ids, size, count⟩ := occupied_of_serve (by decide : 0 < 4) (by decide) same
  exact ⟨by decide, slots, ids, size, count.trans (by decide)⟩

end UniqueTable
end DecisionDiagram
