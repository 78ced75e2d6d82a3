import DecisionDiagram.Operations
import DecisionDiagram.Proofs.Diagram
import DecisionDiagram.Proofs.WellFormed

/-!
# What ids stand for

Following the branches from an id unfolds it into a diagram without sharing.  On a
well-formed store every known id has exactly one such diagram, it is canonical, and no
other id has the same one.  An id therefore stands for one boolean function, and
different ids stand for different functions.
-/

namespace DecisionDiagram
namespace UniqueTable

variable {table later : UniqueTable} {ref other : Ref} {diagram : Diagram} {node : Node} {var : Var}
variable {assignment : Assignment}

/-- The id unfolds into the diagram. -/
def Represents (table : UniqueTable) : Ref → Diagram → Prop
  | ref, .constant value => ref = .ofBool value
  | ref, .decision var low high =>
      ∃ node, table.node? ref = some node ∧ node.var = var ∧
        table.Represents node.low low ∧ table.Represents node.high high

/-- The constant reached from an id in so many steps, along the branches that an
assignment selects. -/
def valueWithin (table : UniqueTable) (assignment : Assignment) : (steps : Nat) → Ref → Bool
  | 0, ref => ref == .trueRef
  | steps + 1, ref =>
      match table.node? ref with
      | none => ref == .trueRef
      | some node =>
          table.valueWithin assignment steps (if assignment node.var then node.high else node.low)

/-- The boolean function that an id stands for.  No path of an ordered diagram is
longer than the nesting limit. -/
def function (table : UniqueTable) (ref : Ref) : Assignment → Bool :=
  fun assignment => table.valueWithin assignment nestingLimit ref

@[simp] theorem represents_constant {value : Bool} :
    table.Represents ref (.constant value) ↔ ref = .ofBool value := by
  rw [Represents]

theorem represents_decision {low high : Diagram} :
    table.Represents ref (.decision var low high) ↔
      ∃ node, table.node? ref = some node ∧ node.var = var ∧
        table.Represents node.low low ∧ table.Represents node.high high := by
  rw [Represents]

theorem Represents.of_node? {low high : Diagram} (content : table.node? ref = some node)
    (lowRepresents : table.Represents node.low low)
    (highRepresents : table.Represents node.high high) :
    table.Represents ref (.decision node.var low high) :=
  represents_decision.2 ⟨node, content, rfl, lowRepresents, highRepresents⟩

theorem Represents.var? (represents : table.Represents ref diagram) :
    table.var? ref = some diagram.top := by
  cases diagram with
  | constant value =>
      rw [represents_constant] at represents
      simp [represents]
  | decision var low high =>
      obtain ⟨node, content, rfl, _, _⟩ := represents_decision.1 represents
      exact var?_of_node? content

theorem Represents.knows (represents : table.Represents ref diagram) : table.Knows ref :=
  knows_iff_var?.2 ⟨_, represents.var?⟩

/-- An id unfolds into one diagram only. -/
theorem Represents.diagram_unique {first second : Diagram} (left : table.Represents ref first)
    (right : table.Represents ref second) : first = second := by
  induction first generalizing ref second with
  | constant value =>
      rw [represents_constant] at left
      subst left
      cases second with
      | constant other =>
          rw [represents_constant] at right
          have constants := congrArg Ref.constant? right
          simpa using constants
      | decision var low high =>
          obtain ⟨node, content, _⟩ := represents_decision.1 right
          simp [node?_ofBool] at content
  | decision var low high lowIH highIH =>
      obtain ⟨node, content, rfl, lowLeft, highLeft⟩ := represents_decision.1 left
      cases second with
      | constant other =>
          rw [represents_constant] at right
          subst right
          simp [node?_ofBool] at content
      | decision otherVar otherLow otherHigh =>
          obtain ⟨same, sameContent, rfl, lowRight, highRight⟩ := represents_decision.1 right
          obtain rfl : node = same := by simpa [content] using sameContent
          rw [lowIH lowLeft lowRight, highIH highLeft highRight]

theorem Represents.extend (represents : table.Represents ref diagram)
    (grown : later.Extends table) : later.Represents ref diagram := by
  induction diagram generalizing ref with
  | constant value => simpa using represents
  | decision var low high lowIH highIH =>
      obtain ⟨node, content, rfl, lowRepresents, highRepresents⟩ :=
        represents_decision.1 represents
      exact .of_node? (grown.node? content) (lowIH lowRepresents) (highIH highRepresents)

/-- No two ids unfold into one diagram. -/
theorem Searchable.ref_eq_of_represents (searchable : table.Searchable)
    (left : table.Represents ref diagram) (right : table.Represents other diagram) :
    ref = other := by
  induction diagram generalizing ref other with
  | constant value => rw [represents_constant.1 left, represents_constant.1 right]
  | decision var low high lowIH highIH =>
      obtain ⟨node, content, rfl, lowLeft, highLeft⟩ := represents_decision.1 left
      obtain ⟨twin, twinContent, sameVar, lowRight, highRight⟩ := represents_decision.1 right
      have same : twin = node := by
        cases node
        cases twin
        cases sameVar
        cases lowIH lowLeft lowRight
        cases highIH highLeft highRight
        rfl
      rw [same] at twinContent
      exact searchable.ref_unique content twinContent

/-! ## Well-formed stores -/

theorem Follows.lt_top (follows : table.Follows ref var)
    (represents : table.Represents ref diagram) :
    var < diagram.top := by
  obtain ⟨next, known, before⟩ := follows
  rw [represents.var?] at known
  cases known
  exact before

theorem WellFormed.canonical (wellFormed : table.WellFormed)
    (represents : table.Represents ref diagram) : diagram.Canonical := by
  induction diagram generalizing ref with
  | constant value => exact .constant value
  | decision var low high lowIH highIH =>
      obtain ⟨node, content, rfl, lowRepresents, highRepresents⟩ :=
        represents_decision.1 represents
      have proper := wellFormed.proper_of_node? content
      refine .decision (proper.low_follows.lt_top lowRepresents)
        (proper.high_follows.lt_top highRepresents) ?_ (lowIH lowRepresents)
        (highIH highRepresents)
      intro same
      rw [← same] at highRepresents
      exact proper.different
        (wellFormed.searchable.ref_eq_of_represents lowRepresents highRepresents)

/-- Every known id unfolds, since tests descend through finitely many variables. -/
theorem WellFormed.exists_represents (wellFormed : table.WellFormed) (known : table.Knows ref) :
    ∃ diagram, table.Represents ref diagram := by
  obtain ⟨var, tested⟩ := knows_iff_var?.1 known
  obtain ⟨gap, bound⟩ : ∃ gap, terminalVar.toNat - var.toNat = gap := ⟨_, rfl⟩
  induction gap using Nat.strongRecOn generalizing ref var with
  | ind gap ih =>
      rcases known.cases with ⟨value, rfl⟩ | ⟨node, content⟩
      · exact ⟨.constant value, by simp⟩
      · have sameVar : node.var = var := by
          rw [var?_of_node? content] at tested
          exact Option.some.inj tested
        have proper := wellFormed.proper_of_node? content
        have branch : ∀ child, table.Follows child node.var →
            ∃ diagram, table.Represents child diagram := by
          intro child follows
          obtain ⟨next, childTested, before⟩ := follows
          rw [UInt32.lt_iff_toNat_lt, sameVar] at before
          have last := UInt32.le_iff_toNat_le.1 (le_terminalVar next)
          exact ih (terminalVar.toNat - next.toNat) (by omega)
            (knows_iff_var?.2 ⟨next, childTested⟩) next childTested rfl
        obtain ⟨low, lowRepresents⟩ := branch node.low proper.low_follows
        obtain ⟨high, highRepresents⟩ := branch node.high proper.high_follows
        exact ⟨_, .of_node? content lowRepresents highRepresents⟩

/-! ## Functions -/

theorem Represents.valueWithin {steps : Nat} (represents : table.Represents ref diagram)
    (canonical : diagram.Canonical)
    (enough : terminalVar.toNat ≤ diagram.top.toNat + steps) :
    table.valueWithin assignment steps ref = diagram.eval assignment := by
  induction canonical generalizing ref steps with
  | constant value =>
      rw [represents_constant.1 represents]
      cases steps <;> cases value <;> rfl
  | @decision var low high lowAfter highAfter _ _ _ lowIH highIH =>
      obtain ⟨node, content, rfl, lowRepresents, highRepresents⟩ :=
        represents_decision.1 represents
      have lowNext := UInt32.lt_iff_toNat_lt.1 lowAfter
      have highNext := UInt32.lt_iff_toNat_lt.1 highAfter
      have lowLast := UInt32.le_iff_toNat_le.1 (le_terminalVar low.top)
      rw [Diagram.top_decision] at enough
      obtain ⟨steps, rfl⟩ : ∃ rest, steps = rest + 1 := ⟨steps - 1, by omega⟩
      simp only [UniqueTable.valueWithin, content, Diagram.eval]
      split
      · exact highIH highRepresents (by omega)
      · exact lowIH lowRepresents (by omega)

theorem WellFormed.function_eq (wellFormed : table.WellFormed)
    (represents : table.Represents ref diagram) : table.function ref = diagram.eval := by
  funext assignment
  have limit : terminalVar.toNat ≤ nestingLimit := by decide
  exact represents.valueWithin (wellFormed.canonical represents)
    (Nat.le_trans limit (Nat.le_add_left _ _))

/-- Ids of one diagram stand for one function, also in different stores. -/
theorem WellFormed.function_eq_of_represents (wellFormed : table.WellFormed)
    (otherWellFormed : later.WellFormed) (represents : table.Represents ref diagram)
    (otherRepresents : later.Represents other diagram) :
    table.function ref = later.function other := by
  rw [wellFormed.function_eq represents, otherWellFormed.function_eq otherRepresents]

theorem WellFormed.function_ofBool (wellFormed : table.WellFormed) (value : Bool) :
    table.function (.ofBool value) = fun _ => value := by
  rw [wellFormed.function_eq (represents_constant.2 rfl)]
  rfl

/-- The function of a node is that of the branch that its variable selects. -/
theorem WellFormed.function_of_node? (wellFormed : table.WellFormed)
    (content : table.node? ref = some node) :
    table.function ref = fun assignment =>
      if assignment node.var then table.function node.high assignment
      else table.function node.low assignment := by
  have proper := wellFormed.proper_of_node? content
  obtain ⟨low, lowRepresents⟩ := wellFormed.exists_represents proper.low_follows.knows
  obtain ⟨high, highRepresents⟩ := wellFormed.exists_represents proper.high_follows.knows
  rw [wellFormed.function_eq (.of_node? content lowRepresents highRepresents),
    wellFormed.function_eq lowRepresents, wellFormed.function_eq highRepresents]
  rfl

theorem WellFormed.ref_eq_of_function_eq (wellFormed : table.WellFormed)
    (known : table.Knows ref) (otherKnown : table.Knows other)
    (same : table.function ref = table.function other) : ref = other := by
  obtain ⟨diagram, represents⟩ := wellFormed.exists_represents known
  obtain ⟨twin, otherRepresents⟩ := wellFormed.exists_represents otherKnown
  rw [wellFormed.function_eq represents, wellFormed.function_eq otherRepresents] at same
  rw [← (wellFormed.canonical represents).eq_of_eval_eq
    (wellFormed.canonical otherRepresents) same] at otherRepresents
  exact wellFormed.searchable.ref_eq_of_represents represents otherRepresents

/-- A known id keeps its function while the store grows. -/
theorem WellFormed.function_extend (wellFormed : table.WellFormed)
    (laterWellFormed : later.WellFormed) (grown : later.Extends table)
    (known : table.Knows ref) : later.function ref = table.function ref := by
  obtain ⟨diagram, represents⟩ := wellFormed.exists_represents known
  rw [wellFormed.function_eq represents, laterWellFormed.function_eq (represents.extend grown)]

end UniqueTable
end DecisionDiagram
