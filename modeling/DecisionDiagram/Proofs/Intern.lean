import DecisionDiagram.Proofs.Representation

/-!
# Storing diagrams

A canonical diagram is stored from its leaves to its root: first the false branch,
then the true branch, then the test.  Parts that are in use already are found again,
so only what is missing takes slots.  This is the store's half of every operator:
whatever the computed table holds, an operator acts on the store as if it stored the
diagram of its result.
-/

namespace DecisionDiagram

abbrev StoreM := EStateM Failure UniqueTable

/-- The state that a computation leaves behind, whether it ended well or not. -/
def finalState {ε σ α : Type} : EStateM.Result ε σ α → σ
  | .ok _ state => state
  | .error _ state => state

/-! ## Running in sequence -/

section Sequence

variable {ε σ α β : Type} {action : EStateM ε σ α} {next : α → EStateM ε σ β} {state after : σ}

theorem run_bind_of_ok {answer : α} (run : action.run state = .ok answer after) :
    (action >>= next).run state = (next answer).run after := by
  rw [EStateM.run_bind, run]

theorem run_bind_of_error {failure : ε} (run : action.run state = .error failure after) :
    (action >>= next).run state = .error failure after := by
  rw [EStateM.run_bind, run]

theorem exists_of_run_bind_eq_ok {answer : β}
    (run : (action >>= next).run state = .ok answer after) :
    ∃ first middle, action.run state = .ok first middle ∧
      (next first).run middle = .ok answer after := by
  cases begun : action.run state with
  | ok first middle => exact ⟨first, middle, rfl, by rwa [run_bind_of_ok begun] at run⟩
  | error failure middle =>
      rw [run_bind_of_error begun] at run
      cases run

end Sequence

namespace UniqueTable

variable {table later : UniqueTable} {ref low high : Ref} {diagram : Diagram} {var : Var}

/-- The id of a content, which is stored if it is new. -/
def store (node : Node) : StoreM Ref := fun table =>
  match table.insert node with
  | .ok (ref, later) => .ok ref later
  | .error cause => .error (.error cause) table

/-- The id of a test, or of its branches if they are the same. -/
def merge (var : Var) (low high : Ref) : StoreM Ref :=
  if low = high then pure low else store ⟨var, low, high⟩

/-- The id of a diagram, whose missing parts are stored from the leaves up. -/
def intern : Diagram → StoreM Ref
  | .constant value => pure (.ofBool value)
  | .decision var low high => do
      let lowRef ← intern low
      let highRef ← intern high
      merge var lowRef highRef

theorem run_intern_decision (var : Var) (low high : Diagram) (table : UniqueTable) :
    (intern (.decision var low high)).run table =
      (intern low >>= fun lowRef => intern high >>= merge var lowRef).run table := rfl

theorem run_store (node : Node) (table : UniqueTable) :
    (store node).run table = match table.insert node with
      | .ok (ref, later) => .ok ref later
      | .error cause => .error (.error cause) table := rfl

/-- A computation that stored a diagram. -/
structure Interned (table : UniqueTable) (diagram : Diagram) (ref : Ref) (later : UniqueTable) :
    Prop where
  wellFormed : later.WellFormed
  grown : later.Extends table
  represents : later.Represents ref diagram

/-- Storing a proper node either names an id that has the content afterwards, or finds
the table full. -/
theorem WellFormed.run_store {node : Node} (wellFormed : table.WellFormed)
    (proper : table.Proper node) :
    (∃ ref later, (store node).run table = .ok ref later ∧ later.WellFormed ∧
      later.Extends table ∧ later.node? ref = some node) ∨
    (store node).run table = .error (.error (.capacityExhausted table.capacity)) table := by
  have run := UniqueTable.run_store node table
  cases inserted : table.insert node with
  | ok result =>
      obtain ⟨ref, later⟩ := result
      rw [inserted] at run
      exact .inl ⟨ref, later, run, wellFormed.insert proper inserted⟩
  | error cause =>
      rcases wellFormed.searchable.insert_cases node with
        ⟨_, _, result⟩ | ⟨_, _, _, result⟩ | ⟨_, _, result⟩
      · simp [result] at inserted
      · simp [result] at inserted
      · rw [result] at run
        exact .inr run

theorem WellFormed.run_store_of_node? {node : Node} (wellFormed : table.WellFormed)
    (content : table.node? ref = some node) : (store node).run table = .ok ref table := by
  rw [UniqueTable.run_store, wellFormed.insert_of_node? content]

/-- A canonical diagram is stored, or the table is too small for it; what was in use
stays in use in either case. -/
theorem WellFormed.run_intern (wellFormed : table.WellFormed) (canonical : diagram.Canonical) :
    (∃ ref later, (intern diagram).run table = .ok ref later ∧
      table.Interned diagram ref later) ∨
    (∃ later, (intern diagram).run table =
        .error (.error (.capacityExhausted table.capacity)) later ∧
      later.WellFormed ∧ later.Extends table) := by
  induction canonical generalizing table with
  | constant value =>
      exact .inl ⟨.ofBool value, table, rfl, wellFormed, .refl table, represents_constant.2 rfl⟩
  | @decision var low high lowAfter highAfter different lowCanonical highCanonical lowIH highIH =>
      rw [run_intern_decision]
      rcases lowIH wellFormed with ⟨lowRef, middle, run, lowInterned⟩ | ⟨later, run, kept⟩
      case inr => exact .inr ⟨later, run_bind_of_error run, kept⟩
      rw [run_bind_of_ok run]
      rcases highIH lowInterned.wellFormed with
        ⟨highRef, last, run, highInterned⟩ | ⟨later, run, kept, grown⟩
      case inr =>
        refine .inr ⟨later, ?_, kept, grown.trans lowInterned.grown⟩
        rw [run_bind_of_error run, lowInterned.grown.capacity_eq]
      rw [run_bind_of_ok run]
      have lowRepresents := lowInterned.represents.extend highInterned.grown
      have distinct : lowRef ≠ highRef := by
        rintro rfl
        exact different (lowRepresents.diagram_unique highInterned.represents)
      have proper : last.Proper ⟨var, lowRef, highRef⟩ :=
        ⟨distinct, ⟨_, lowRepresents.var?, lowAfter⟩, ⟨_, highInterned.represents.var?, highAfter⟩⟩
      have grown := highInterned.grown.trans lowInterned.grown
      simp only [merge, distinct, ↓reduceIte]
      rcases highInterned.wellFormed.run_store proper with
        ⟨ref, later, run, kept, added, content⟩ | run
      · exact .inl ⟨ref, later, run, kept, added.trans grown,
          .of_node? content (lowRepresents.extend added) (highInterned.represents.extend added)⟩
      · refine .inr ⟨last, ?_, highInterned.wellFormed, grown⟩
        rw [run, grown.capacity_eq]

theorem WellFormed.interned_of_run (wellFormed : table.WellFormed) (canonical : diagram.Canonical)
    (run : (intern diagram).run table = .ok ref later) : table.Interned diagram ref later := by
  rcases wellFormed.run_intern canonical with ⟨stored, last, result, interned⟩ | ⟨_, result, _⟩
  · rw [run] at result
    cases result
    exact interned
  · rw [run] at result
    cases result

/-- Storing a diagram that is in use finds it again and changes nothing. -/
theorem WellFormed.run_intern_of_represents (wellFormed : table.WellFormed)
    (represents : table.Represents ref diagram) :
    (intern diagram).run table = .ok ref table := by
  induction diagram generalizing ref with
  | constant value =>
      rw [represents_constant.1 represents]
      rfl
  | decision var low high lowIH highIH =>
      obtain ⟨node, content, rfl, lowRepresents, highRepresents⟩ :=
        represents_decision.1 represents
      have different := (wellFormed.proper_of_node? content).different
      rw [run_intern_decision, run_bind_of_ok (lowIH lowRepresents),
        run_bind_of_ok (highIH highRepresents)]
      simp only [merge, different, ↓reduceIte]
      exact wellFormed.run_store_of_node? content

/-- A diagram may be stored by way of its cofactors, also by a variable that it does
not test. -/
theorem WellFormed.run_intern_cofactors (wellFormed : table.WellFormed)
    (canonical : diagram.Canonical) (above : var ≤ diagram.top) (usable : var < terminalVar) :
    (intern diagram).run table =
      (intern (diagram.cofactor var false) >>= fun low =>
        intern (diagram.cofactor var true) >>= merge var low).run table := by
  by_cases tested : diagram.top = var
  · cases canonical with
    | constant =>
        cases tested
        exact absurd usable (UInt32.lt_irrefl _)
    | decision =>
        cases tested
        simp [run_intern_decision]
  · have strictly : var < diagram.top := UInt32.lt_of_le_of_ne above (Ne.symm tested)
    rw [Diagram.cofactor_of_lt strictly, Diagram.cofactor_of_lt strictly]
    rcases wellFormed.run_intern canonical with ⟨ref, later, run, interned⟩ | ⟨later, run, _⟩
    · have again := interned.wellFormed.run_intern_of_represents interned.represents
      rw [run_bind_of_ok run, run_bind_of_ok again, run]
      simp only [merge, ↓reduceIte]
      rfl
    · rw [run_bind_of_error run, run]

end UniqueTable
end DecisionDiagram
