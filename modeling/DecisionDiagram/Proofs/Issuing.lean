import DecisionDiagram.Perform
import DecisionDiagram.Proofs.Intern
import DecisionDiagram.Proofs.Series

/-!
# Issuing ids

A unique table takes contents of any kind, well formed or not, and issues an id for each.
What it holds after a series of requests is told by the requests alone: a content keeps the
id that it was issued first, a new one takes the first vacant slot from its home on, and
once the table is full only the contents that it holds are answered.
-/

namespace DecisionDiagram
namespace UniqueTable

variable {table start : UniqueTable} {node stored : Node} {nodes : List Node} {ref : Ref}
variable {slot : Nat}

def request (node : Node) : StoreM Answer :=
  (TableCall.insert node.var node.low node.high).perform

/-- The table after some requests, also those that failed. -/
def serve (table : UniqueTable) (nodes : List Node) : UniqueTable :=
  nodes.foldl (fun table node => finalState ((request node).run table)) table

/-- In the course of some requests the id was issued for the content. -/
def Issues (start : UniqueTable) (nodes : List Node) (node : Node) (ref : Ref) : Prop :=
  (places (fun before asked => asked = node ∧
    ∃ later, (request asked).run (start.serve before) = .ok (.ref ref) later) nodes).Nonempty

/-- The contents for which an id was issued. -/
def served (start : UniqueTable) (nodes : List Node) : Set Node :=
  { node | ∃ ref, start.Issues nodes node ref }

theorem serve_snoc (start : UniqueTable) (nodes : List Node) (node : Node) :
    start.serve (nodes ++ [node]) = finalState ((request node).run (start.serve nodes)) := by
  simp only [serve, List.foldl_append, List.foldl_cons, List.foldl_nil]

theorem issues_snoc {asked : Node} :
    start.Issues (nodes ++ [asked]) node ref ↔ start.Issues nodes node ref ∨
      asked = node ∧ ∃ later, (request asked).run (start.serve nodes) = .ok (.ref ref) later :=
  nonempty_places_snoc

theorem run_request (node : Node) (table : UniqueTable) :
    (request node).run table = match table.insert node with
      | .ok (ref, later) => .ok (.ref ref) later
      | .error cause => .error (.error cause) table := rfl

/-! ## One request -/

theorem forall_node?_ne (unused : ∀ index : Nat, table.content? index ≠ some node) (ref : Ref) :
    table.node? ref ≠ some node := by
  intro content
  obtain ⟨index, _, held⟩ := exists_slot_of_node? content
  exact unused index held

/-- A request is answered with the id in use, or with the id of a slot that it takes, or it
fails because the table is full. -/
theorem Searchable.run_request_cases (searchable : table.Searchable) (node : Node) :
    (∃ ref, table.node? ref = some node ∧ (request node).run table = .ok (.ref ref) table) ∨
    (∃ slot, table.probe node = .vacant slot ∧ (∀ ref, table.node? ref ≠ some node) ∧
      (request node).run table = .ok (.ref (.ofSlot slot)) (table.occupy slot node)) ∨
    (table.size = table.capacity ∧ (∀ ref, table.node? ref ≠ some node) ∧
      (request node).run table = .error (.error (.capacityExhausted table.capacity)) table) := by
  rcases searchable.insert_cases node with
    ⟨slot, content, result⟩ | ⟨slot, vacant, unused, result⟩ | ⟨exhausted, unused, result⟩
  · exact .inl ⟨.ofSlot slot, searchable.node?_ofSlot content, by rw [run_request, result]⟩
  · exact .inr (.inl ⟨slot, vacant, forall_node?_ne unused, by rw [run_request, result]⟩)
  · exact .inr (.inr ⟨searchable.size_eq_of_exhausted exhausted, forall_node?_ne unused,
      by rw [run_request, result]⟩)

/-- A content in use is answered with its id, however full the table is. -/
theorem Searchable.run_request_of_node? (searchable : table.Searchable)
    (content : table.node? ref = some node) :
    (request node).run table = .ok (.ref ref) table := by
  rcases searchable.run_request_cases node with
    ⟨other, otherContent, run⟩ | ⟨_, _, unused, _⟩ | ⟨_, unused, _⟩
  · rwa [searchable.ref_unique content otherContent]
  · exact absurd content (unused ref)
  · exact absurd content (unused ref)

/-- Where there is room, a new content takes the first vacant slot from its home on. -/
theorem Searchable.run_request_of_new (searchable : table.Searchable)
    (unused : ∀ ref, table.node? ref ≠ some node) (room : table.size < table.capacity) :
    ∃ offset < table.capacity, ∃ slot, slot = (table.home node + offset) % table.capacity ∧
      (∀ nearer < offset, table.content? ((table.home node + nearer) % table.capacity) ≠ none) ∧
      table.content? slot = none ∧
      (request node).run table = .ok (.ref (.ofSlot slot)) (table.occupy slot node) := by
  rcases searchable.run_request_cases node with
    ⟨ref, content, _⟩ | ⟨slot, vacant, _, run⟩ | ⟨full, _, _⟩
  · exact absurd content (unused ref)
  · obtain ⟨offset, reached, arrives, passed⟩ :=
      exists_offset_of_probeFrom_vacant (table.home_lt node) vacant
    exact ⟨offset, reached, slot, arrives, passed, content?_of_probeFrom_vacant vacant, run⟩
  · exact absurd full (Nat.ne_of_lt room)

/-- A full table refuses a new content. -/
theorem Searchable.run_request_of_full (searchable : table.Searchable)
    (unused : ∀ ref, table.node? ref ≠ some node) (full : table.size = table.capacity) :
    (request node).run table = .error (.error (.capacityExhausted table.capacity)) table := by
  rcases searchable.run_request_cases node with
    ⟨ref, content, _⟩ | ⟨slot, vacant, _, _⟩ | ⟨_, _, run⟩
  · exact absurd content (unused ref)
  · have within := lt_capacity_of_probeFrom (table.home_lt node) (.inr vacant)
    have room := searchable.size_lt_of_vacant within (content?_of_probeFrom_vacant vacant)
    exact absurd full (Nat.ne_of_lt room)
  · exact run

theorem node?_occupy (within : slot < table.capacity) (ref : Ref) :
    (table.occupy slot node).node? ref =
      if ref = .ofSlot slot then some node else table.node? ref := by
  cases denoted : ref.slot? with
  | none =>
      have different : ref ≠ .ofSlot slot := by
        rintro rfl
        simp [Ref.slot?_ofSlot (fits_of_lt_capacity within)] at denoted
      simp [node?, denoted, different]
  | some index =>
      have sameSlot : slot = index ↔ ref = .ofSlot slot := by
        rw [← Ref.ofSlot_of_slot? denoted]
        constructor
        · rintro rfl
          rfl
        · intro same
          rw [Ref.ofSlot_of_slot? denoted] at same
          rw [same, Ref.slot?_ofSlot (fits_of_lt_capacity within)] at denoted
          exact Option.some.inj denoted
      simp only [node?, denoted, content?_occupy, sameSlot]

/-- A request leaves the table searchable and of the same capacity. -/
theorem Searchable.request (searchable : table.Searchable) (node : Node) :
    (finalState ((request node).run table)).Searchable ∧
      (finalState ((request node).run table)).capacity = table.capacity := by
  rcases searchable.run_request_cases node with
    ⟨_, _, run⟩ | ⟨_, vacant, _, run⟩ | ⟨_, _, run⟩
  · rw [run]
    exact ⟨searchable, rfl⟩
  · rw [run]
    exact ⟨searchable.occupy vacant, rfl⟩
  · rw [run]
    exact ⟨searchable, rfl⟩

/-- After a request the ids in use are those before it, and the one issued. -/
theorem Searchable.node?_request (searchable : table.Searchable) (asked : Node) :
    (finalState ((UniqueTable.request asked).run table)).node? ref = some node ↔
      table.node? ref = some node ∨
        asked = node ∧ ∃ later, (UniqueTable.request asked).run table = .ok (.ref ref) later := by
  rcases searchable.run_request_cases asked with
    ⟨known, content, run⟩ | ⟨slot, vacant, unused, run⟩ | ⟨_, _, run⟩
  · simp only [run, finalState]
    constructor
    · exact .inl
    · rintro (content | ⟨rfl, later, same⟩)
      · exact content
      · cases same
        exact content
  · have within := lt_capacity_of_probeFrom (table.home_lt asked) (.inr vacant)
    have empty : table.node? (.ofSlot slot) = none := by
      rw [UniqueTable.node?_ofSlot within, content?_of_probeFrom_vacant vacant]
    simp only [run, finalState, node?_occupy within]
    by_cases issued : ref = .ofSlot slot
    · subst issued
      simp [empty]
    · have different : Ref.ofSlot slot ≠ ref := Ne.symm issued
      simp [issued, different]
  · simp [run, finalState]

/-! ## All requests -/

/-- A series of requests leaves a searchable table, in which exactly the ids issued are in
use. -/
theorem Searchable.serve (searchable : start.Searchable) (nothing : ∀ ref, start.node? ref = none)
    (nodes : List Node) :
    (start.serve nodes).Searchable ∧ (start.serve nodes).capacity = start.capacity ∧
      ∀ ref node, (start.serve nodes).node? ref = some node ↔ start.Issues nodes node ref := by
  induction nodes using List.reverseRecOn with
  | nil =>
      refine ⟨searchable, rfl, fun ref node => ?_⟩
      simp [UniqueTable.serve, Issues, nothing]
  | append_singleton nodes asked ih =>
      obtain ⟨kept, sameCapacity, issued⟩ := ih
      have next := kept.request asked
      rw [serve_snoc]
      refine ⟨next.1, next.2.trans sameCapacity, fun ref node => ?_⟩
      rw [kept.node?_request, issues_snoc, issued]

/-- The ids in use, listed in ascending order. -/
theorem Searchable.mem_toList (searchable : table.Searchable) :
    (ref, node) ∈ table.toList ↔ table.node? ref = some node := by
  simp only [toList, List.mem_map, Prod.exists, Std.TreeMap.mem_toList_iff_getElem?_eq_some]
  constructor
  · rintro ⟨slot, held, found, same⟩
    cases same
    exact searchable.node?_ofSlot (by simp [content?, found])
  · intro content
    obtain ⟨slot, denoted, found⟩ := exists_slot_of_node? content
    obtain ⟨held, occupied, same⟩ := Option.map_eq_some_iff.1 found
    exact ⟨slot, held, occupied, by rw [Ref.ofSlot_of_slot? denoted, same]⟩

theorem id_ofSlot (within : slot < table.capacity) : (Ref.ofSlot slot).id.toNat = slot + 2 :=
  UInt32.toNat_ofNat_of_lt' (fits_of_lt_capacity within)

theorem Searchable.pairwise_toList (searchable : table.Searchable) :
    table.toList.Pairwise fun left right => left.1.id < right.1.id := by
  rw [toList, List.pairwise_map]
  apply Std.TreeMap.ordered_keys_toList.imp_of_mem
  intro left right leftMember rightMember before
  have within : ∀ pair ∈ table.slots.toList, pair.1 < table.capacity := by
    intro pair member
    have occupied := Std.TreeMap.mem_toList_iff_getElem?_eq_some.1 member
    exact searchable.lt_capacity (show table.content? pair.1 = some pair.2.node by
      simp [content?, occupied])
  rw [UInt32.lt_iff_toNat_lt, id_ofSlot (within left leftMember),
    id_ofSlot (within right rightMember)]
  exact Nat.add_lt_add_right (Nat.compare_eq_lt.1 before) 2

/-- What a table without nodes becomes under any series of requests.  An id once issued for
a content is issued for it ever after, and nothing changes.  A new content gets a fresh id
as long as fewer contents are held than there are slots: that of the first vacant slot, in
cyclic order from the one that its hash selects, in numbers that do not wrap around.  A new
content that finds the table full is refused, and nothing changes.  The size counts the
contents held; an id leads to the content for which it was issued, all others lead nowhere;
and the list of the table has exactly these pairs in ascending order. -/
theorem ids_of_serve {capacity : Nat} (capacity_pos : 0 < capacity)
    (capacity_le : capacity ≤ maxCapacity) (nodes : List Node) :
    let start := empty capacity capacity_pos capacity_le
    let table := start.serve nodes
    (∀ node ref, start.Issues nodes node ref → (request node).run table = .ok (.ref ref) table) ∧
    (∀ node ∉ start.served nodes, (start.served nodes).ncard < capacity →
      ∃ offset < capacity, ∃ slot < capacity,
        slot = (node.hash.toNat % capacity + offset) % capacity ∧
        (∀ nearer < offset,
          table.content? ((node.hash.toNat % capacity + nearer) % capacity) ≠ none) ∧
        table.content? slot = none ∧
        (Ref.ofSlot slot).id.toNat = slot + 2 ∧
        (∀ other, ¬start.Issues nodes other (.ofSlot slot)) ∧
        (request node).run table = .ok (.ref (.ofSlot slot)) (table.occupy slot node)) ∧
    (∀ node ∉ start.served nodes, capacity ≤ (start.served nodes).ncard →
      (request node).run table = .error (.error (.capacityExhausted capacity)) table) ∧
    table.size = (start.served nodes).ncard ∧
    (∀ ref node, table.node? ref = some node ↔ start.Issues nodes node ref) ∧
    (∀ ref node, (ref, node) ∈ table.toList ↔ start.Issues nodes node ref) ∧
    table.toList.Pairwise fun left right => left.1.id < right.1.id := by
  intro start table
  have nothing : ∀ ref, start.node? ref = none := by
    intro ref
    simp only [node?]
    cases ref.slot? <;> simp [start]
  obtain ⟨searchable, sameCapacity, issued⟩ : table.Searchable ∧ table.capacity = capacity ∧
      ∀ ref node, table.node? ref = some node ↔ start.Issues nodes node ref :=
    (searchable_empty capacity capacity_pos capacity_le).serve nothing nodes
  have held : start.served nodes = table.contents := by
    ext node
    simp only [served, contents, Set.mem_ofPred_eq, issued]
  have unused : ∀ node ∉ start.served nodes, ∀ ref, table.node? ref ≠ some node :=
    fun node new ref content => new ⟨ref, (issued ref node).1 content⟩
  rw [held, searchable.ncard_contents]
  refine ⟨?known, ?new, ?full, rfl, issued, ?listed, searchable.pairwise_toList⟩
  case known =>
    intro node ref before
    exact searchable.run_request_of_node? ((issued ref node).2 before)
  case new =>
    intro node new room
    rw [← sameCapacity] at room ⊢
    obtain ⟨offset, reached, slot, arrives, passed, vacant, run⟩ :=
      searchable.run_request_of_new (unused node (held ▸ new)) room
    have within : slot < table.capacity := arrives ▸ Nat.mod_lt _ table.capacity_pos
    refine ⟨offset, reached, slot, within, arrives, passed, vacant, id_ofSlot within, ?_, run⟩
    intro other before
    rw [← issued, UniqueTable.node?_ofSlot within, vacant] at before
    cases before
  case full =>
    intro node new full
    rw [← sameCapacity] at full ⊢
    exact searchable.run_request_of_full (unused node (held ▸ new))
      (Nat.le_antisymm searchable.size_le full)
  case listed =>
    intro ref node
    rw [searchable.mem_toList, issued]

/-- Two contents with the same home, the last slot: the second one goes around to the first
slot, and then there is no room for a third. -/
theorem ids_of_serve_two :
    let start := empty 2 (by decide) (by decide)
    let table := start.serve [⟨1, ⟨0⟩, ⟨1⟩⟩, ⟨7, ⟨9⟩, ⟨9⟩⟩]
    0 < 2 ∧ 2 ≤ maxCapacity ∧
      (request ⟨7, ⟨9⟩, ⟨9⟩⟩).run table = .ok (.ref ⟨2⟩) table ∧
      (request ⟨5, ⟨2⟩, ⟨3⟩⟩).run table = .error (.error (.capacityExhausted 2)) table := by
  intro start table
  obtain ⟨known, _, full, size, issued, listed, _⟩ := @ids_of_serve 2 (by decide)
    (by decide) [⟨1, ⟨0⟩, ⟨1⟩⟩, ⟨7, ⟨9⟩, ⟨9⟩⟩]
  refine ⟨by decide, by decide, ?_, ?_⟩
  · exact known _ _ ((issued _ _).1 (by decide))
  · apply full
    · rintro ⟨ref, before⟩
      have others : ∀ pair ∈ table.toList, pair.2 ≠ ⟨5, ⟨2⟩, ⟨3⟩⟩ := by decide
      exact others _ ((listed _ _).2 before) rfl
    · rw [← size]
      decide

end UniqueTable
end DecisionDiagram
