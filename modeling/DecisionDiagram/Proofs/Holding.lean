import DecisionDiagram.Proofs.Intern
import DecisionDiagram.Proofs.Issuing

/-!
# What a store holds

A store holds a diagram when some id unfolds into it.  Seen this way a store is a set of
diagrams, and its capacity bounds the size of that set.  Storing a diagram adds exactly
its subdiagrams, so a store is too small precisely when the set would outgrow it.  None of
this depends on slots, or on the order in which the diagrams came in.
-/

namespace DecisionDiagram

namespace Diagram

variable {diagram low high : Diagram} {var : Var}

/-- Everything that a diagram leads to, itself and the constants included. -/
def subdiagrams : Diagram → Finset Diagram
  | .constant value => {.constant value}
  | .decision var low high =>
      insert (.decision var low high) (low.subdiagrams ∪ high.subdiagrams)

theorem mem_subdiagrams_decision :
    diagram ∈ (decision var low high).subdiagrams ↔
      diagram = .decision var low high ∨ diagram ∈ low.subdiagrams ∨
        diagram ∈ high.subdiagrams := by
  rw [subdiagrams, Finset.mem_insert, Finset.mem_union]

theorem coe_subdiagrams_decision (var : Var) (low high : Diagram) :
    ((decision var low high).subdiagrams : Set Diagram) =
      ↑low.subdiagrams ∪ ↑high.subdiagrams ∪ {decision var low high} := by
  rw [subdiagrams, Finset.coe_insert, Finset.coe_union, Set.union_singleton]

theorem mem_subdiagrams_self (diagram : Diagram) : diagram ∈ diagram.subdiagrams := by
  cases diagram with
  | constant value => simp [subdiagrams]
  | decision var low high => simp [subdiagrams]

end Diagram

namespace UniqueTable

variable {table later : UniqueTable} {ref other : Ref} {diagram low high : Diagram} {node : Node}
variable {slot : Nat}

def held (table : UniqueTable) : Set Diagram :=
  { diagram | ∃ ref, table.Represents ref diagram }

open Classical in
noncomputable def unfolding (table : UniqueTable) (ref : Ref) : Diagram :=
  if known : ∃ diagram, table.Represents ref diagram then known.choose else .constant false

theorem Represents.unfolding_eq (represents : table.Represents ref diagram) :
    table.unfolding ref = diagram := by
  have known : ∃ diagram, table.Represents ref diagram := ⟨diagram, represents⟩
  rw [unfolding, dif_pos known]
  exact known.choose_spec.diagram_unique represents

theorem WellFormed.represents_unfolding (wellFormed : table.WellFormed)
    (known : table.Knows ref) : table.Represents ref (table.unfolding ref) := by
  obtain ⟨unfolded, represents⟩ := wellFormed.exists_represents known
  rwa [represents.unfolding_eq]

/-! ## Growing stores -/

theorem Represents.mem_held (represents : table.Represents ref diagram) : diagram ∈ table.held :=
  ⟨ref, represents⟩

theorem constant_mem_held (table : UniqueTable) (value : Bool) :
    Diagram.constant value ∈ table.held :=
  ⟨.ofBool value, represents_constant.2 rfl⟩

theorem Extends.held_subset (grown : later.Extends table) : table.held ⊆ later.held := by
  intro diagram member
  obtain ⟨ref, represents⟩ := member
  exact ⟨ref, represents.extend grown⟩

/-- A store holds a diagram with all that it leads to. -/
theorem Represents.subdiagrams_subset (represents : table.Represents ref diagram) :
    (diagram.subdiagrams : Set Diagram) ⊆ table.held := by
  induction diagram generalizing ref with
  | constant value =>
      simp only [Diagram.subdiagrams, Finset.coe_singleton, Set.singleton_subset_iff]
      exact represents.mem_held
  | decision var low high lowIH highIH =>
      obtain ⟨node, _, _, lowRepresents, highRepresents⟩ := represents_decision.1 represents
      rw [Diagram.coe_subdiagrams_decision]
      exact Set.union_subset (Set.union_subset (lowIH lowRepresents) (highIH highRepresents))
        (Set.singleton_subset_iff.2 represents.mem_held)

/-! ## Counting -/

/-- The ids that stand for something. -/
def known (table : UniqueTable) : Set Ref :=
  { ref | table.Knows ref }

theorem known_eq (table : UniqueTable) :
    table.known = {.falseRef, .trueRef} ∪ table.published := by
  ext ref
  simp only [known, Knows, published, Set.mem_ofPred_eq, Set.mem_union, Set.mem_insert_iff,
    Set.mem_singleton_iff, Ref.isTerminal_iff, Option.isSome_iff_exists]

theorem Searchable.finite_published (searchable : table.Searchable) : table.published.Finite := by
  rw [searchable.published_eq]
  exact (Finset.finite_toSet _).image _

theorem ofBool_notMem_published (table : UniqueTable) (value : Bool) :
    Ref.ofBool value ∉ table.published := by
  simp [published, table.node?_ofBool value]

theorem Searchable.ncard_known (searchable : table.Searchable) :
    table.known.ncard = table.size + 2 := by
  have constants : ({.falseRef, .trueRef} : Set Ref).ncard = 2 := Set.ncard_pair (by decide)
  have apart : Disjoint {.falseRef, .trueRef} table.published := by
    rw [Set.disjoint_insert_left, Set.disjoint_singleton_left]
    exact ⟨table.ofBool_notMem_published false, table.ofBool_notMem_published true⟩
  rw [known_eq, Set.ncard_union_eq apart (Set.toFinite _) searchable.finite_published, constants,
    searchable.ncard_published, Nat.add_comm]

theorem WellFormed.held_eq (wellFormed : table.WellFormed) :
    table.held = table.unfolding '' table.known := by
  ext diagram
  constructor
  · intro member
    obtain ⟨ref, represents⟩ := member
    exact ⟨ref, represents.knows, represents.unfolding_eq⟩
  · intro member
    obtain ⟨ref, known, rfl⟩ := member
    exact ⟨ref, wellFormed.represents_unfolding known⟩

theorem WellFormed.injOn_unfolding (wellFormed : table.WellFormed) :
    Set.InjOn table.unfolding table.known := by
  intro left leftKnown right rightKnown same
  have leftRepresents := wellFormed.represents_unfolding leftKnown
  rw [same] at leftRepresents
  exact wellFormed.searchable.ref_eq_of_represents leftRepresents
    (wellFormed.represents_unfolding rightKnown)

/-- As many diagrams are held as slots are taken, and the two constants. -/
theorem WellFormed.ncard_held (wellFormed : table.WellFormed) :
    table.held.ncard = table.size + 2 := by
  rw [wellFormed.held_eq, wellFormed.injOn_unfolding.ncard_image, wellFormed.searchable.ncard_known]

theorem WellFormed.finite_held (wellFormed : table.WellFormed) : table.held.Finite := by
  rw [wellFormed.held_eq, known_eq]
  exact ((Set.toFinite _).union wellFormed.searchable.finite_published).image _

/-! ## Storing -/

/-- A store whose contents lack a node does not hold the diagram of the node. -/
theorem Searchable.not_mem_held_of_unused (searchable : table.Searchable)
    (lowRepresents : table.Represents node.low low)
    (highRepresents : table.Represents node.high high)
    (unused : ∀ ref, table.node? ref ≠ some node) :
    Diagram.decision node.var low high ∉ table.held := by
  intro member
  obtain ⟨ref, represents⟩ := member
  obtain ⟨twin, content, sameVar, twinLow, twinHigh⟩ := represents_decision.1 represents
  have same : twin = node := by
    cases node
    cases twin
    cases sameVar
    cases searchable.ref_eq_of_represents twinLow lowRepresents
    cases searchable.ref_eq_of_represents twinHigh highRepresents
    rfl
  rw [same] at content
  exact unused ref content

/-- Storing a proper node adds its diagram to those held, unless the table is full and the
diagram is not among them. -/
theorem WellFormed.held_of_run_store (wellFormed : table.WellFormed)
    (proper : table.Proper node) (lowRepresents : table.Represents node.low low)
    (highRepresents : table.Represents node.high high) :
    (∃ ref later, (store node).run table = .ok ref later ∧
      later.held = table.held ∪ {.decision node.var low high}) ∨
    ((store node).run table = .error (.error (.capacityExhausted table.capacity)) table ∧
      table.size = table.capacity ∧ Diagram.decision node.var low high ∉ table.held) := by
  have searchable := wellFormed.searchable
  have run := UniqueTable.run_store node table
  rcases searchable.insert_cases node with
    ⟨slot, content, result⟩ | ⟨slot, vacant, unused, result⟩ | ⟨exhausted, unused, result⟩
  · rw [result] at run
    have represents : table.Represents (.ofSlot slot) (.decision node.var low high) :=
      .of_node? (searchable.node?_ofSlot content) lowRepresents highRepresents
    refine .inl ⟨.ofSlot slot, table, run, ?_⟩
    rw [Set.union_singleton, Set.insert_eq_of_mem represents.mem_held]
  · rw [result] at run
    obtain ⟨kept, grown, content⟩ := wellFormed.insert proper result
    have represents : (table.occupy slot node).Represents (.ofSlot slot)
        (.decision node.var low high) :=
      .of_node? content (lowRepresents.extend grown) (highRepresents.extend grown)
    have added := Set.insert_subset represents.mem_held grown.held_subset
    have new := searchable.not_mem_held_of_unused lowRepresents highRepresents
      (forall_node?_ne unused)
    refine .inl ⟨.ofSlot slot, table.occupy slot node, run, ?_⟩
    rw [Set.union_singleton]
    apply (Set.eq_of_subset_of_ncard_le added _ kept.finite_held).symm
    rw [kept.ncard_held, searchable.size_occupy vacant,
      Set.ncard_insert_of_notMem new wellFormed.finite_held, wellFormed.ncard_held]
  · rw [result] at run
    exact .inr ⟨run, searchable.size_eq_of_exhausted exhausted,
      searchable.not_mem_held_of_unused lowRepresents highRepresents (forall_node?_ne unused)⟩

/-- The store is too small to hold some diagrams in addition to its own. -/
def Lacks (table : UniqueTable) (diagrams : Set Diagram) : Prop :=
  table.capacity + 2 < (table.held ∪ diagrams).ncard

/-- More diagrams do not fit either. -/
theorem WellFormed.lacks_mono {fewer more : Set Diagram} (wellFormed : table.WellFormed)
    (lacks : table.Lacks fewer) (subset : fewer ⊆ more) (finite : more.Finite) :
    table.Lacks more :=
  Nat.lt_of_lt_of_le lacks (Set.ncard_le_ncard (Set.union_subset_union_right _ subset)
    (wellFormed.finite_held.union finite))

/-- What does not fit once some diagrams have been added does not fit together with them. -/
theorem lacks_union {first second : Set Diagram} (grown : later.Extends table)
    (held : later.held = table.held ∪ first) (lacks : later.Lacks second) :
    table.Lacks (first ∪ second) := by
  rwa [Lacks, held, grown.capacity_eq, Set.union_assoc] at lacks

/-- A full table lacks room for a diagram that it does not hold. -/
theorem WellFormed.lacks_of_full (wellFormed : table.WellFormed)
    (full : table.size = table.capacity) (new : diagram ∉ table.held) :
    table.Lacks {diagram} := by
  rw [Lacks, Set.union_singleton, Set.ncard_insert_of_notMem new wellFormed.finite_held,
    wellFormed.ncard_held, full]
  exact Nat.lt_succ_self _

/-- A store that holds some diagrams in addition to its own was not too small for them. -/
theorem WellFormed.not_lacks_of_held {diagrams : Set Diagram} (laterWellFormed : later.WellFormed)
    (grown : later.Extends table) (held : later.held = table.held ∪ diagrams) :
    ¬table.Lacks diagrams := by
  have bound := laterWellFormed.searchable.size_le
  rw [Lacks, ← held, laterWellFormed.ncard_held, ← grown.capacity_eq]
  exact Nat.not_lt.2 (Nat.add_le_add_right bound 2)

/-- Storing a canonical diagram adds its subdiagrams to those held, unless the table is too
small for them and becomes full. -/
theorem WellFormed.held_of_run_intern (wellFormed : table.WellFormed)
    (canonical : diagram.Canonical) :
    (∃ ref later, (intern diagram).run table = .ok ref later ∧
      table.Interned diagram ref later ∧ later.held = table.held ∪ diagram.subdiagrams) ∨
    (∃ later, (intern diagram).run table =
        .error (.error (.capacityExhausted table.capacity)) later ∧
      table.Lacks diagram.subdiagrams ∧ later.size = table.capacity) := by
  induction canonical generalizing table with
  | constant value =>
      have interned : table.Interned (.constant value) (.ofBool value) table :=
        ⟨wellFormed, .refl table, represents_constant.2 rfl⟩
      refine .inl ⟨.ofBool value, table, rfl, interned, ?_⟩
      rw [Diagram.subdiagrams, Finset.coe_singleton, Set.union_singleton,
        Set.insert_eq_of_mem (table.constant_mem_held value)]
  | @decision var low high lowAfter highAfter different lowCanonical highCanonical lowIH highIH =>
      have canonical : (Diagram.decision var low high).Canonical :=
        .decision lowAfter highAfter different lowCanonical highCanonical
      rw [Diagram.coe_subdiagrams_decision, run_intern_decision]
      have finite : (↑low.subdiagrams ∪ ↑high.subdiagrams ∪
          {Diagram.decision var low high} : Set Diagram).Finite := Set.toFinite _
      rcases lowIH wellFormed with
        ⟨lowRef, middle, lowRun, lowInterned, lowHeld⟩ | ⟨later, run, lacks, full⟩
      case inr =>
        refine .inr ⟨later, run_bind_of_error run, wellFormed.lacks_mono lacks ?_ finite, full⟩
        exact Set.subset_union_left.trans Set.subset_union_left
      rcases highIH lowInterned.wellFormed with
        ⟨highRef, last, highRun, highInterned, highHeld⟩ | ⟨later, run, lacks, full⟩
      case inr =>
        rw [lowInterned.grown.capacity_eq] at run full
        refine .inr ⟨later, (run_bind_of_ok lowRun).trans (run_bind_of_error run), ?_, full⟩
        exact wellFormed.lacks_mono (lacks_union lowInterned.grown lowHeld lacks)
          Set.subset_union_left finite
      have grown := highInterned.grown.trans lowInterned.grown
      have held : last.held = table.held ∪ (↑low.subdiagrams ∪ ↑high.subdiagrams) := by
        rw [highHeld, lowHeld, Set.union_assoc]
      have lowRepresents := lowInterned.represents.extend highInterned.grown
      have distinct : lowRef ≠ highRef := by
        intro same
        rw [same] at lowRepresents
        exact different (lowRepresents.diagram_unique highInterned.represents)
      have proper : last.Proper ⟨var, lowRef, highRef⟩ :=
        ⟨distinct, ⟨_, lowRepresents.var?, lowAfter⟩, ⟨_, highInterned.represents.var?, highAfter⟩⟩
      have merged : (intern low >>= fun lowRef => intern high >>= merge var lowRef).run table =
          (store ⟨var, lowRef, highRef⟩).run last := by
        rw [run_bind_of_ok lowRun, run_bind_of_ok highRun, merge, if_neg distinct]
      rw [merged]
      rcases highInterned.wellFormed.held_of_run_store proper lowRepresents
          highInterned.represents with ⟨ref, later, run, added⟩ | ⟨run, full, new⟩
      · have interned := wellFormed.interned_of_run canonical (merged.trans run)
        exact .inl ⟨ref, later, run, interned, by rw [added, held, Set.union_assoc]⟩
      · have lacks := highInterned.wellFormed.lacks_of_full full new
        rw [grown.capacity_eq] at run full
        exact .inr ⟨last, run, lacks_union grown held lacks, full⟩

end UniqueTable
end DecisionDiagram
