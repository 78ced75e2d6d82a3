import DecisionDiagram.Proofs.Operators
import DecisionDiagram.Proofs.Restrictions

/-!
# What operators add to a store

An operator acts on the store as if it stored the diagram of its result.  Whatever it makes on
the way is therefore a part of that diagram, and it fails only if the missing parts do not fit
into the table, which is full then.  The parts of a result correspond to what can remain of its
function, so the room that an operator takes is a matter of functions alone.
-/

namespace DecisionDiagram

open UniqueTable (intern)

/-! ## Calls to operators -/

/-- What a call to an operator asks for, as a key. -/
def Call.key? : Call Ref → Option Key
  | .negate operand => some (.negation operand)
  | .apply op left right => some (.binary op left right)
  | .choose condition yes no => some (.conditional condition yes no)
  | _ => none

section Calls

variable {session : Session} {call : Call Ref} {key : Key} {diagram : Diagram}

/-- If the operands that count are known, all operands of the key are: the others are
constants. -/
theorem Call.admits_of_operands {table : UniqueTable} (asks : call.key? = some key)
    (known : ∀ operand ∈ key.operands, table.Knows operand) : table.Admits key := by
  have padding := table.knows_ofBool false
  cases call with
  | negate operand =>
      cases asks
      exact ⟨known _ (by simp [Key.operands, Key.negation, Operator.arity]), padding, padding⟩
  | apply op left right =>
      cases asks
      exact ⟨known _ (by simp [Key.operands, Key.binary, Operator.arity]),
        known _ (by simp [Key.operands, Key.binary, Operator.arity]), padding⟩
  | choose condition yes no =>
      cases asks
      exact ⟨known _ (by simp [Key.operands, Key.conditional, Operator.arity]),
        known _ (by simp [Key.operands, Key.conditional, Operator.arity]),
        known _ (by simp [Key.operands, Key.conditional, Operator.arity])⟩
  | _ => cases asks

/-- A call to an operator does to the store what storing the diagram of its result does. -/
theorem SessionM.Simulates.perform (sound : session.Sound) (asks : call.key? = some key)
    (denotes : session.table.Denotes key diagram) :
    Simulates call.perform (do return Answer.ref (← intern diagram)) session := by
  have answered : ∀ (result : Ref) (later : Session), later.Sound →
      Simulates (Pure.pure (Answer.ref result)) (Pure.pure (Answer.ref result)) later :=
    fun _ _ laterSound => .pure _ laterSound
  cases call with
  | negate operand =>
      cases asks
      exact .bind (.negate sound denotes) fun result later _ => answered result later
  | apply op left right =>
      cases asks
      exact .bind (.apply sound denotes) fun result later _ => answered result later
  | choose condition yes no =>
      cases asks
      exact .bind (.choose sound denotes) fun result later _ => answered result later
  | _ => cases asks

/-- A call to an operator is answered with an id of its result's diagram, and adds what is
missing of it; or the table is too small for that, and becomes full. -/
theorem Call.outcome_cases (sound : session.Sound) (asks : call.key? = some key)
    (denotes : session.table.Denotes key diagram) :
    (∃ result, call.outcome session = .answered (.ref result) ∧
      session.table.Interned diagram result (call.after session).table ∧
      (call.after session).table.held = session.table.held ∪ diagram.subdiagrams) ∨
    (call.outcome session = .full session.table.capacity ∧
      session.table.Lacks diagram.subdiagrams ∧
      (call.after session).table.size = session.table.capacity) := by
  rw [outcome_eq, table_after, (SessionM.Simulates.perform sound asks denotes).view]
  rcases sound.wellFormed.held_of_run_intern denotes.canonical with
    ⟨result, later, run, interned, held⟩ | ⟨later, run, lacks, full⟩
  · rw [run_bind_of_ok run]
    exact .inl ⟨result, rfl, interned, held⟩
  · rw [run_bind_of_error run]
    exact .inr ⟨rfl, lacks, full⟩

end Calls

/-! ## Ids in use -/

namespace UniqueTable

variable {table later : UniqueTable} {ref : Ref} {diagram : Diagram}

theorem mem_published_iff :
    ref ∈ table.published ↔ table.Knows ref ∧ ref.isTerminal = false := by
  simp only [published, Set.mem_ofPred_eq, Option.isSome_iff_exists]
  constructor
  · rintro ⟨node, content⟩
    exact ⟨.inr ⟨node, content⟩, not_isTerminal_of_node? content⟩
  · rintro ⟨known, decision⟩
    exact known.resolve_left (by simp [decision])

/-- If a diagram's parts were added to what a store holds, the new ids are those of its
parts. -/
theorem WellFormed.published_of_held (laterWellFormed : later.WellFormed)
    (grown : later.Extends table) (held : later.held = table.held ∪ diagram.subdiagrams) :
    later.published = table.published ∪ { ref | (∃ inner ∈ diagram.subdiagrams,
      later.Represents ref inner) ∧ ref.isTerminal = false } := by
  ext ref
  simp only [Set.mem_union, Set.mem_ofPred_eq, mem_published_iff]
  constructor
  · rintro ⟨known, decision⟩
    have represents := laterWellFormed.represents_unfolding known
    have member := represents.mem_held
    rw [held] at member
    rcases member with before | part
    · obtain ⟨other, unfolds⟩ := before
      obtain rfl :=
        laterWellFormed.searchable.ref_eq_of_represents (unfolds.extend grown) represents
      exact .inl ⟨unfolds.knows, decision⟩
    · exact .inr ⟨⟨_, part, represents⟩, decision⟩
  · rintro (⟨known, decision⟩ | ⟨⟨inner, _, represents⟩, decision⟩)
    · exact ⟨grown.knows known, decision⟩
    · exact ⟨represents.knows, decision⟩

end UniqueTable

/-- If an operator is answered on known operands, the ids in use afterwards are those that were
in use before and the decision nodes among the descendants of the answer. -/
theorem published_of_operator {session : Session}
    (reachable : session.toManager.Reachable Call.isHonest) {call : Call Ref} {key : Key}
    (asks : call.key? = some key)
    (known : ∀ operand ∈ key.operands, session.contains operand = true) {result : Ref}
    (answered : call.outcome session = .answered (.ref result)) :
    let later := call.after session
    ∃ reached, later.descendants [result] = .ok reached ∧
      later.table.published =
        session.table.published ∪ { ref | ref ∈ reached ∧ ref.isTerminal = false } := by
  intro later
  have sound : session.Sound := reachable.sound
  have admits := Call.admits_of_operands asks fun operand member =>
    Manager.contains_iff_knows.1 (known operand member)
  obtain ⟨diagram, denotes⟩ := sound.wellFormed.exists_denotes admits
  rcases Call.outcome_cases sound asks denotes with
    ⟨issued, found, interned, held⟩ | ⟨full, _⟩
  · rw [answered] at found
    cases found
    obtain ⟨laterWellFormed, grown, represents⟩ := interned
    obtain ⟨reached, listed, members⟩ :=
      Manager.descendants_of_represents laterWellFormed.searchable represents
    refine ⟨reached, listed, ?_⟩
    rw [laterWellFormed.published_of_held grown held]
    simp only [members]
  · rw [answered] at full
    cases full

/-- An exclusive disjunction takes two slots, one of them for a negation on the way. -/
theorem published_of_roomy :
    let later := (Call.apply .xor ⟨14⟩ ⟨15⟩).after Session.roomy
    (Call.apply .xor ⟨14⟩ ⟨15⟩).outcome Session.roomy = .answered (.ref ⟨5⟩) ∧
      later.table.size = Session.roomy.table.size + 2 ∧
      ∃ reached, later.descendants [⟨5⟩] = .ok reached ∧
        later.table.published =
          Session.roomy.table.published ∪ { ref | ref ∈ reached ∧ ref.isTerminal = false } := by
  intro later
  have answered : (Call.apply .xor ⟨14⟩ ⟨15⟩).outcome Session.roomy = .answered (.ref ⟨5⟩) := by
    decide +kernel
  refine ⟨answered, by decide +kernel, ?_⟩
  exact published_of_operator Session.reachable_roomy rfl (by decide) answered

/-! ## Room -/

namespace UniqueTable

variable {table : UniqueTable} {diagram inner : Diagram}

/-- What can remain of a function, is no constant and is not the function of an id in use. -/
def missing (table : UniqueTable) (function : Assignment → Bool) : Set (Assignment → Bool) :=
  { remaining ∈ restrictions function | (∀ value, remaining ≠ fun _ => value) ∧
    ∀ ref ∈ table.published, table.function ref ≠ remaining }

/-- A canonical diagram is held exactly if its function is constant or that of an id in use. -/
theorem WellFormed.notMem_held_iff (wellFormed : table.WellFormed) (canonical : inner.Canonical) :
    inner ∉ table.held ↔ (∀ value, inner.eval ≠ fun _ => value) ∧
      ∀ ref ∈ table.published, table.function ref ≠ inner.eval := by
  constructor
  · intro new
    refine ⟨fun value same => new ?_, fun ref inUse same => new ?_⟩
    · rw [canonical.eq_of_eval_eq (.constant value) same]
      exact table.constant_mem_held value
    · have known := (mem_published_iff.1 inUse).1
      exact (wellFormed.represents_of_function_eq known canonical same).mem_held
  · rintro ⟨proper, unused⟩ ⟨ref, represents⟩
    have same := wellFormed.function_eq represents
    rcases represents.knows.cases with ⟨value, rfl⟩ | ⟨node, content⟩
    · exact proper value (same.symm.trans (wellFormed.function_ofBool value))
    · exact unused ref (Option.isSome_iff_exists.2 ⟨node, content⟩) same

/-- What is missing of a function are the subdiagrams that are not held. -/
theorem WellFormed.missing_eq (wellFormed : table.WellFormed) (canonical : diagram.Canonical) :
    table.missing diagram.eval = Diagram.eval '' (↑diagram.subdiagrams \ table.held) := by
  ext remaining
  rw [missing, canonical.restrictions_eq]
  constructor
  · rintro ⟨⟨inner, member, rfl⟩, absent⟩
    have innerCanonical := canonical.of_mem_subdiagrams member
    exact ⟨inner, ⟨member, (wellFormed.notMem_held_iff innerCanonical).2 absent⟩, rfl⟩
  · rintro ⟨inner, ⟨member, new⟩, rfl⟩
    have innerCanonical := canonical.of_mem_subdiagrams member
    exact ⟨⟨inner, member, rfl⟩, (wellFormed.notMem_held_iff innerCanonical).1 new⟩

theorem WellFormed.finite_missing (wellFormed : table.WellFormed) (canonical : diagram.Canonical) :
    (table.missing diagram.eval).Finite := by
  rw [wellFormed.missing_eq canonical]
  exact (diagram.subdiagrams.finite_toSet.subset Set.sdiff_subset).image _

/-- A table is too small for a diagram exactly if what is missing does not fit beside what is
in use. -/
theorem WellFormed.lacks_iff (wellFormed : table.WellFormed) (canonical : diagram.Canonical) :
    table.Lacks diagram.subdiagrams ↔
      table.capacity < table.size + (table.missing diagram.eval).ncard := by
  have different : (table.missing diagram.eval).ncard =
      (↑diagram.subdiagrams \ table.held : Set Diagram).ncard := by
    rw [wellFormed.missing_eq canonical]
    exact (canonical.injOn_eval_subdiagrams.mono Set.sdiff_subset).ncard_image
  have count := Set.ncard_sdiff_add_ncard (diagram.subdiagrams : Set Diagram) table.held
    diagram.subdiagrams.finite_toSet wellFormed.finite_held
  rw [wellFormed.ncard_held] at count
  rw [Lacks, Set.union_comm, ← count, different]
  omega

end UniqueTable

/-- On known operands, an operator is answered if what is missing of the function asked for
fits into the table beside the nodes in use.  Otherwise it reports that the table is exhausted,
and leaves it full.  It never fails in another way. -/
theorem outcome_of_operator {session : Session}
    (reachable : session.toManager.Reachable Call.isHonest) {call : Call Ref} {key : Key}
    (asks : call.key? = some key)
    (known : ∀ operand ∈ key.operands, session.contains operand = true) :
    let missing := session.table.missing (session.table.asked key)
    let capacity := session.table.capacity
    missing.Finite ∧
    (session.table.size + missing.ncard ≤ capacity →
      ∃ result, call.outcome session = .answered (.ref result)) ∧
    (capacity < session.table.size + missing.ncard →
      call.outcome session = .failed (.error (.capacityExhausted capacity)) ∧
        (call.after session).table.size = capacity) ∧
    ∀ failure, call.outcome session = .failed failure →
      failure = .error (.capacityExhausted capacity) := by
  intro missing capacity
  have sound : session.Sound := reachable.sound
  have wellFormed := sound.wellFormed
  have admits := Call.admits_of_operands asks fun operand member =>
    Manager.contains_iff_knows.1 (known operand member)
  obtain ⟨diagram, denotes⟩ := wellFormed.exists_denotes admits
  have canonical := denotes.canonical
  have same : missing = session.table.missing diagram.eval := by rw [denotes.eval_eq]
  have finite : missing.Finite := by
    rw [same]
    exact wellFormed.finite_missing canonical
  have lacksIff := wellFormed.lacks_iff canonical
  rw [← same] at lacksIff
  rcases Call.outcome_cases sound asks denotes with
    ⟨result, answered, interned, held⟩ | ⟨full, lacks, size⟩
  · have room := interned.wellFormed.not_lacks_of_held interned.grown held
    refine ⟨finite, fun _ => ⟨result, answered⟩, fun short => absurd (lacksIff.2 short) room, ?_⟩
    intro failure failed
    rw [answered] at failed
    cases failed
  · have short := lacksIff.1 lacks
    refine ⟨finite, fun fits => absurd short (Nat.not_lt.2 fits), fun _ => ⟨full, size⟩, ?_⟩
    intro failure failed
    rw [full] at failed
    cases failed
    rfl

/-- With one slot left, an implication of two variables is answered, and their exclusive
disjunction, for which two functions are missing, takes the slot and fails. -/
theorem outcome_of_crowded :
    let table := Session.crowded.table
    (table.size + (table.missing (table.asked (.binary .imply ⟨2⟩ ⟨3⟩))).ncard ≤ 4 ∧
      (Call.apply .imply ⟨2⟩ ⟨3⟩).outcome Session.crowded = .answered (.ref ⟨5⟩)) ∧
    4 < table.size + (table.missing (table.asked (.binary .xor ⟨2⟩ ⟨3⟩))).ncard ∧
      (Call.apply .xor ⟨2⟩ ⟨3⟩).outcome Session.crowded =
        .failed (.error (.capacityExhausted 4)) ∧
      ((Call.apply .xor ⟨2⟩ ⟨3⟩).after Session.crowded).table.size = 4 := by
  intro table
  have answered : (Call.apply .imply ⟨2⟩ ⟨3⟩).outcome Session.crowded = .answered (.ref ⟨5⟩) := by
    decide +kernel
  have failed : (Call.apply .xor ⟨2⟩ ⟨3⟩).outcome Session.crowded =
      .failed (.error (.capacityExhausted 4)) := by
    decide +kernel
  obtain ⟨_, _, short, _⟩ := @outcome_of_operator Session.crowded Session.reachable_crowded
    (.apply .imply ⟨2⟩ ⟨3⟩) (.binary .imply ⟨2⟩ ⟨3⟩) rfl (by decide)
  obtain ⟨_, fits, full, _⟩ := @outcome_of_operator Session.crowded Session.reachable_crowded
    (.apply .xor ⟨2⟩ ⟨3⟩) (.binary .xor ⟨2⟩ ⟨3⟩) rfl (by decide)
  rw [answered] at short
  rw [failed] at fits
  have room : table.size + (table.missing (table.asked (.binary .imply ⟨2⟩ ⟨3⟩))).ncard ≤ 4 := by
    by_contra missing
    cases (short (Nat.not_le.1 missing)).1
  have lacking : 4 < table.size + (table.missing (table.asked (.binary .xor ⟨2⟩ ⟨3⟩))).ncard := by
    by_contra missing
    obtain ⟨_, impossible⟩ := fits (Nat.not_lt.1 missing)
    cases impossible
  exact ⟨⟨room, answered⟩, lacking, failed, (full lacking).2⟩

end DecisionDiagram
