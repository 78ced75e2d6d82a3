import DecisionDiagram.Proofs.Closure
import DecisionDiagram.Proofs.Expansion

/-!
# Going down

An expansion works its way down from its operands.  Each of its steps leads from ids to their
branches, so it stays within what the operands lead to; and it leaves the tested variable behind,
so that later tests are on later variables only.  Neither depends on what is remembered, or on
what is stored on the way.
-/

namespace DecisionDiagram

/-- What holds of two variables holds of the one that is tested first. -/
theorem min_of_both {property : Var → Prop} {left right : Var} (ofLeft : property left)
    (ofRight : property right) : property (min left right) := by
  rcases Std.min_eq_or (a := left) (b := right) with same | same
  · rwa [same]
  · rwa [same]

/-- The store of the session is well formed and has grown from a given one. -/
structure GrownFrom (base : UniqueTable) (session : Session) : Prop where
  wellFormed : session.table.WellFormed
  grown : session.table.Extends base

theorem GrownFrom.after {α : Type} {base : UniqueTable} {session : Session}
    {action : SessionM α} (grown : GrownFrom base session) (grows : SessionM.Grows action) :
    GrownFrom base (finalState (action.run session)) := by
  obtain ⟨wellFormed, extended⟩ := (grows session).grown grown.wellFormed
  exact ⟨wellFormed, extended.trans grown.grown⟩

namespace UniqueTable

variable {table base : UniqueTable} {parts : Set Ref} {bound less : Nat} {ref : Ref}
variable {node : Node} {var next : Var}

/-- Of every id the set has the branches as well. -/
def Closed (table : UniqueTable) (parts : Set Ref) : Prop :=
  ∀ ref ∈ parts, ∀ node, table.node? ref = some node → node.low ∈ parts ∧ node.high ∈ parts

/-- The id is known and tests no variable before a bound. -/
def StartsAt (table : UniqueTable) (bound : Nat) (ref : Ref) : Prop :=
  ∃ var, table.var? ref = some var ∧ bound ≤ var.toNat

/-- The id belongs to the set, is known, and tests no variable before a bound. -/
structure Part (table : UniqueTable) (parts : Set Ref) (bound : Nat) (ref : Ref) : Prop where
  member : ref ∈ parts
  starts : table.StartsAt bound ref

theorem StartsAt.knows (starts : table.StartsAt bound ref) : table.Knows ref := by
  obtain ⟨var, tested, _⟩ := starts
  exact knows_iff_var?.2 ⟨var, tested⟩

theorem StartsAt.mono (starts : table.StartsAt bound ref) (sooner : less ≤ bound) :
    table.StartsAt less ref := by
  obtain ⟨var, tested, after⟩ := starts
  exact ⟨var, tested, Nat.le_trans sooner after⟩

theorem StartsAt.le_of_var? (starts : table.StartsAt bound ref)
    (tested : table.var? ref = some var) : bound ≤ var.toNat := by
  obtain ⟨same, sameTested, after⟩ := starts
  rw [tested] at sameTested
  cases sameTested
  exact after

theorem Follows.startsAt (follows : table.Follows ref var) :
    table.StartsAt (var.toNat + 1) ref := by
  obtain ⟨next, tested, before⟩ := follows
  exact ⟨next, tested, UInt32.lt_iff_toNat_lt.1 before⟩

/-- Constants test nothing, so they may stand for operands that are left out. -/
theorem StartsAt.ofBool (starts : table.StartsAt bound ref) (value : Bool) :
    table.StartsAt bound (.ofBool value) := by
  obtain ⟨var, _, after⟩ := starts
  refine ⟨terminalVar, table.var?_ofBool value, Nat.le_trans after ?_⟩
  exact UInt32.le_iff_toNat_le.1 (le_terminalVar var)

theorem Part.branches (wellFormed : table.WellFormed) (closed : table.Closed parts)
    (part : table.Part parts bound ref) (content : table.node? ref = some node) :
    table.Part parts (node.var.toNat + 1) node.low ∧
      table.Part parts (node.var.toNat + 1) node.high := by
  have proper := wellFormed.proper_of_node? content
  obtain ⟨lowMember, highMember⟩ := closed ref part.member node content
  exact ⟨⟨lowMember, proper.low_follows.startsAt⟩, ⟨highMember, proper.high_follows.startsAt⟩⟩

/-- Whichever of two operands is filed first, both are parts. -/
theorem Part.exists_arranged {left right : Ref} (leftPart : table.Part parts bound left)
    (rightPart : table.Part parts bound right) (op : BinaryOp)
    (notConstant : left.constant? = none ∧ right.constant? = none) :
    ∃ first second, op.arrange left right = (first, second) ∧ table.Part parts bound first ∧
      table.Part parts bound second ∧ first.constant? = none := by
  rcases op.arrange_cases left right with same | ⟨_, swapped⟩
  · exact ⟨left, right, same, leftPart, rightPart, notConstant.1⟩
  · exact ⟨right, left, swapped, rightPart, leftPart, notConstant.2⟩

end UniqueTable

namespace Manager

variable {manager earlier : Manager} {base : UniqueTable} {parts : Set Ref} {bound : Nat}
variable {ref low high : Ref} {roots : List Ref} {var next : Var} {branches : Ref × Ref}

open UniqueTable (Closed Part)

/-! ## Cofactors -/

/-- Cofactors are branches of an id, or the id itself. -/
theorem mem_of_cofactors (closed : manager.table.Closed parts) (member : ref ∈ parts)
    (found : manager.cofactors ref var = .ok (low, high)) : low ∈ parts ∧ high ∈ parts := by
  rcases cofactors_cases found with ⟨_, rfl, rfl⟩ | content
  · exact ⟨member, member⟩
  · exact closed ref member _ content

/-- An id keeps its cofactors while the store grows. -/
theorem cofactors_extend (grown : manager.table.Extends earlier.table)
    (found : earlier.cofactors ref var = .ok branches) :
    manager.cofactors ref var = .ok branches := by
  obtain ⟨low, high⟩ := branches
  rcases cofactors_cases found with ⟨terminal | follows, rfl, rfl⟩ | content
  · exact cofactors_of_isTerminal terminal
  · exact cofactors_of_follows (grown.follows follows)
  · exact cofactors_of_node? (grown.node? content)

/-- On every store that has grown from the given one, these two are the cofactors of the id by
the variable.  They belong to the set and test later variables only. -/
structure Divided (base : UniqueTable) (parts : Set Ref) (ref : Ref) (var : Var)
    (low high : Ref) : Prop where
  cofactors : ∀ manager : Manager, manager.table.Extends base →
    manager.cofactors ref var = .ok (low, high)
  lowPart : base.Part parts (var.toNat + 1) low
  highPart : base.Part parts (var.toNat + 1) high

/-- A part is divided by every usable variable that is not after the first one it tests. -/
theorem exists_divided (wellFormed : base.WellFormed) (closed : base.Closed parts)
    (part : base.Part parts bound ref) (tested : base.var? ref = some next) (above : var ≤ next)
    (usable : var < terminalVar) : ∃ low high, Divided base parts ref var low high := by
  let sample : Manager := ⟨base, .empty 1 0 (by decide), ⟨0, 0⟩⟩
  obtain ⟨low, high, found, splits⟩ :=
    @exists_cofactors sample ref var next wellFormed tested above usable
  obtain ⟨lowMember, highMember⟩ := @mem_of_cofactors sample _ _ _ _ _ closed part.member found
  exact ⟨low, high, fun manager grown => @cofactors_extend manager sample _ _ _ grown found,
    ⟨lowMember, splits.low_follows.startsAt⟩, ⟨highMember, splits.high_follows.startsAt⟩⟩

/-- Two parts, the first of them a decision node, are divided by the variable that is tested
first in either. -/
theorem exists_divided_both {firstParts secondParts : Set Ref} {first second : Ref}
    (wellFormed : base.WellFormed) (firstClosed : base.Closed firstParts)
    (secondClosed : base.Closed secondParts) (firstPart : base.Part firstParts bound first)
    (secondPart : base.Part secondParts bound second) (notConstant : first.constant? = none) :
    ∃ firstVar secondVar, base.var? first = some firstVar ∧ base.var? second = some secondVar ∧
      min firstVar secondVar < terminalVar ∧
      (∃ first0 first1, Divided base firstParts first (min firstVar secondVar) first0 first1) ∧
      ∃ second0 second1,
        Divided base secondParts second (min firstVar secondVar) second0 second1 := by
  obtain ⟨firstVar, firstTested, _⟩ := firstPart.starts
  obtain ⟨secondVar, secondTested, _⟩ := secondPart.starts
  have usable : min firstVar secondVar < terminalVar :=
    wellFormed.lt_terminalVar_of_le firstTested notConstant Std.min_le_left
  refine ⟨firstVar, secondVar, firstTested, secondTested, usable, ?first, ?second⟩
  case first =>
    exact exists_divided wellFormed firstClosed firstPart firstTested Std.min_le_left usable
  case second =>
    exact exists_divided wellFormed secondClosed secondPart secondTested Std.min_le_right usable

/-! ## Descendants -/

/-- Known ids lead to known ids only. -/
theorem knows_of_reaches (wellFormed : manager.table.WellFormed)
    (known : ∀ root ∈ roots, manager.contains root = true)
    (reaches : manager.Reaches Node.lowFirst roots ref) : manager.table.Knows ref := by
  induction reaches with
  | root member => exact contains_iff_knows.1 (known _ member)
  | @branch ref child node _ content branch _ =>
      have proper := wellFormed.proper_of_node? content
      simp only [Node.lowFirst, List.mem_cons, List.not_mem_nil, or_false] at branch
      rcases branch with rfl | rfl
      · exact proper.low_follows.knows
      · exact proper.high_follows.knows

/-- Everything that known ids lead to can be listed; the list is closed, and all ids are parts
of it. -/
theorem exists_closed_descendants (wellFormed : manager.table.WellFormed)
    (known : ∀ root ∈ roots, manager.contains root = true) :
    ∃ reached, manager.descendants roots = .ok reached ∧
      manager.table.Closed { ref | ref ∈ reached } ∧
      ∀ root ∈ roots, manager.table.Part { ref | ref ∈ reached } 0 root := by
  obtain ⟨reached, listed, _, members⟩ := exists_descendants wellFormed.searchable
    fun ref reaches => knows_of_reaches wellFormed known reaches
  refine ⟨reached, listed, ?closed, ?parts⟩
  case closed =>
    intro ref member node content
    have reaches := (members ref).1 member
    constructor
    · exact (members _).2 (reaches.branch content (by simp [Node.lowFirst]))
    · exact (members _).2 (reaches.branch content (by simp [Node.lowFirst]))
  case parts =>
    intro root member
    obtain ⟨var, tested⟩ :=
      UniqueTable.knows_iff_var?.1 (contains_iff_knows.1 (known root member))
    exact ⟨(members root).2 (.root member), var, tested, Nat.zero_le _⟩

end Manager
end DecisionDiagram
