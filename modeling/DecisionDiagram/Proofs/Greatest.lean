import DecisionDiagram.Proofs.Canonicity
import DecisionDiagram.Proofs.Shape

/-!
# Greatest models

The decisions of a path prefer the value `true`, and they are never taken back.  On a canonical
diagram that leads to a model all the same, since no test has the constant `false` on both of
its branches.  With all other variables true the model is the greatest one, when assignments
are compared by the first variable on which they differ.
-/

namespace DecisionDiagram

/-! ## Assignments -/

/-- The assignment has every value that is decided. -/
def Agrees (assignment : Assignment) (decisions : List (Var × Bool)) : Prop :=
  ∀ decision ∈ decisions, assignment decision.1 = decision.2

/-- The assignment with the values that are decided, and with all other variables true. -/
def completion : List (Var × Bool) → Assignment
  | [] => fun _ => true
  | (var, value) :: rest => Function.update (completion rest) var value

/-- On the first variable on which they differ, the first assignment is true and the second
one is false. -/
def Exceeds (greater less : Assignment) : Prop :=
  ∃ var, (∀ earlier < var, greater earlier = less earlier) ∧
    greater var = true ∧ less var = false

section Assignments

variable {decisions : List (Var × Bool)} {first second : Assignment} {var : Var}

/-- What is false in the completion was decided. -/
theorem mem_of_completion_eq_false (isFalse : completion decisions var = false) :
    (var, false) ∈ decisions := by
  induction decisions with
  | nil => simp [completion] at isFalse
  | cons decision rest ih =>
      obtain ⟨decided, value⟩ := decision
      by_cases same : var = decided
      · rw [completion, same, Function.update_self] at isFalse
        rw [same, isFalse]
        exact List.mem_cons_self
      · rw [completion, Function.update_of_ne same] at isFalse
        exact List.mem_cons_of_mem _ (ih isFalse)

/-- Decisions on different variables do not interfere. -/
theorem agrees_completion (ascending : decisions.Pairwise fun left right => left.1 < right.1) :
    Agrees (completion decisions) decisions := by
  induction decisions with
  | nil => simp [Agrees]
  | cons decision rest ih =>
      obtain ⟨var, value⟩ := decision
      obtain ⟨first, later⟩ := List.pairwise_cons.1 ascending
      intro other member
      rcases List.mem_cons.1 member with rfl | below
      · exact Function.update_self ..
      · have different : other.1 ≠ var := (UInt32.ne_of_lt (first other below)).symm
        rw [completion, Function.update_of_ne different]
        exact ih later other below

/-- Different assignments differ on a first variable. -/
theorem exists_first_difference (different : first ≠ second) :
    ∃ var, (∀ earlier < var, first earlier = second earlier) ∧ first var ≠ second var := by
  obtain ⟨var, differs, least⟩ :=
    (measure UInt32.toNat).wf.has_min { var | first var ≠ second var } (Function.ne_iff.1 different)
  refine ⟨var, fun earlier before => ?_, differs⟩
  by_contra sooner
  exact least earlier sooner (UInt32.lt_iff_toNat_lt.1 before)

end Assignments

/-! ## Paths of canonical diagrams -/

namespace Diagram

variable {diagram : Diagram} {assignment : Assignment} {var : Var} {decision : Var × Bool}

/-- A path decides by a test and goes on below it. -/
theorem mem_path_decision {low high : Diagram} :
    decision ∈ (Diagram.decision var low high).path ↔
      if high = .constant false then decision = (var, false) ∨ decision ∈ low.path
      else decision = (var, true) ∨ decision ∈ high.path := by
  rw [path]
  split <;> rw [List.mem_cons]

theorem Canonical.top_le_of_mem_path (canonical : diagram.Canonical)
    (member : decision ∈ diagram.path) : diagram.top ≤ decision.1 := by
  induction canonical with
  | constant value => simp [path] at member
  | decision lowAfter highAfter _ _ _ lowIH highIH =>
      rw [mem_path_decision] at member
      split at member
      · rcases member with rfl | below
        · exact UInt32.le_refl _
        · exact UInt32.le_of_lt (UInt32.lt_of_lt_of_le lowAfter (lowIH below))
      · rcases member with rfl | below
        · exact UInt32.le_refl _
        · exact UInt32.le_of_lt (UInt32.lt_of_lt_of_le highAfter (highIH below))

theorem Canonical.ascending_path (canonical : diagram.Canonical) :
    diagram.path.Pairwise fun left right => left.1 < right.1 := by
  induction canonical with
  | constant value => exact .nil
  | decision lowAfter highAfter _ lowCanonical highCanonical lowIH highIH =>
      rw [path]
      split
      · refine .cons (fun other below => ?_) lowIH
        exact UInt32.lt_of_lt_of_le lowAfter (lowCanonical.top_le_of_mem_path below)
      · refine .cons (fun other below => ?_) highIH
        exact UInt32.lt_of_lt_of_le highAfter (highCanonical.top_le_of_mem_path below)

/-- The path leads to the constant `true`. -/
theorem Canonical.eval_of_agrees (canonical : diagram.Canonical)
    (satisfiable : diagram ≠ .constant false) (agrees : Agrees assignment diagram.path) :
    diagram.eval assignment = true := by
  induction canonical with
  | constant value =>
      cases value with
      | false => exact absurd rfl satisfiable
      | true => rfl
  | @decision var low high _ _ different _ _ lowIH highIH =>
      have decided := fun decision member => agrees decision (mem_path_decision.2 member)
      by_cases falseBranch : high = .constant false
      case pos =>
        simp only [falseBranch, ↓reduceIte] at decided
        have here : assignment var = false := decided (var, false) (.inl rfl)
        rw [eval, if_neg (by simp [here])]
        refine lowIH (fun same => different (same.trans falseBranch.symm)) ?_
        exact fun decision below => decided decision (.inr below)
      case neg =>
        simp only [falseBranch, ↓reduceIte] at decided
        have here : assignment var = true := decided (var, true) (.inl rfl)
        rw [eval, if_pos here]
        exact highIH falseBranch fun decision below => decided decision (.inr below)

/-- A model that has taken all decisions before a false one takes that one as well: with the
variable true there was no model left. -/
theorem Canonical.eq_false_of_mem_path (canonical : diagram.Canonical)
    (satisfies : diagram.eval assignment = true) (member : (var, false) ∈ diagram.path)
    (followed : ∀ decision ∈ diagram.path, decision.1 < var →
      assignment decision.1 = decision.2) : assignment var = false := by
  induction canonical with
  | constant value => simp [path] at member
  | @decision tested low high _ highAfter _ _ highCanonical lowIH highIH =>
      have earlier := fun decision inside => followed decision (mem_path_decision.2 inside)
      rw [mem_path_decision] at member
      by_cases falseBranch : high = .constant false
      case pos =>
        simp only [falseBranch, ↓reduceIte] at earlier member
        have here : assignment tested = false := by
          cases value : assignment tested with
          | false => rfl
          | true => simp [eval, value, falseBranch] at satisfies
        rw [eval, if_neg (by simp [here])] at satisfies
        rcases member with same | below
        · cases same
          exact here
        · exact lowIH satisfies below fun decision inside => earlier decision (.inr inside)
      case neg =>
        simp only [falseBranch, ↓reduceIte, Prod.mk.injEq, Bool.false_eq_true, and_false,
          false_or] at earlier member
        have before : tested < var :=
          UInt32.lt_of_lt_of_le highAfter (highCanonical.top_le_of_mem_path member)
        rw [eval, if_pos (earlier (tested, true) (.inl rfl) before)] at satisfies
        exact highIH satisfies member fun decision inside => earlier decision (.inr inside)

/-- The completed path exceeds every other model. -/
theorem Canonical.exceeds_of_eval (canonical : diagram.Canonical)
    (satisfies : diagram.eval assignment = true)
    (different : assignment ≠ completion diagram.path) :
    Exceeds (completion diagram.path) assignment := by
  obtain ⟨var, same, differs⟩ := exists_first_difference different
  have agrees := agrees_completion canonical.ascending_path
  refine ⟨var, fun earlier before => (same earlier before).symm, ?_⟩
  cases value : completion diagram.path var with
  | true => exact ⟨rfl, by rwa [value, ne_eq, Bool.not_eq_true] at differs⟩
  | false =>
      have isFalse : assignment var = false := by
        apply canonical.eq_false_of_mem_path satisfies (mem_of_completion_eq_false value)
        intro decision member before
        rw [same decision.1 before, agrees decision member]
      exact absurd (isFalse.trans value.symm) differs

end Diagram

/-- Asking for a model of a known id never fails.  There is none exactly if the function is
nowhere true.  Otherwise the answer decides variables in ascending order, every assignment that
agrees with the decisions is a model, and the one with all other variables true exceeds every
other model. -/
theorem model_of_reachable {manager : Manager} (reachable : manager.Reachable Call.isSafe)
    {ref : Ref} (known : manager.contains ref = true) :
    let function := manager.table.function ref
    ∃ answer, manager.model? ref = .ok answer ∧
      (answer = none ↔ ∀ assignment, function assignment = false) ∧
      ∀ path, answer = some path →
        path.Pairwise (fun left right => left.1 < right.1) ∧
        (∀ assignment, Agrees assignment path → function assignment = true) ∧
        Agrees (completion path) path ∧
        ∀ assignment, function assignment = true → assignment ≠ completion path →
          Exceeds (completion path) assignment := by
  intro function
  have wellFormed := reachable.wellFormed
  obtain ⟨diagram, represents⟩ :=
    wellFormed.exists_represents (Manager.contains_iff_knows.1 known)
  have canonical := wellFormed.canonical represents
  have same : function = diagram.eval := wellFormed.function_eq represents
  rw [same]
  refine ⟨diagram.model?, Manager.model?_of_represents wellFormed represents, ?_, ?_⟩
  · rw [Diagram.model?]
    split
    case isTrue isFalse => simp [isFalse]
    case isFalse satisfiable =>
      simp only [reduceCtorEq, false_iff]
      intro never
      exact satisfiable (canonical.eq_of_eval_eq (.constant false) (funext never))
  · intro path answered
    rw [Diagram.model?] at answered
    split at answered
    case isTrue => cases answered
    case isFalse satisfiable =>
      cases answered
      have ascending := canonical.ascending_path
      exact ⟨ascending, fun _ => canonical.eval_of_agrees satisfiable,
        agrees_completion ascending, fun _ => canonical.exceeds_of_eval⟩

/-- Of the two models of an exclusive disjunction the one with the first variable true is
found, and it exceeds the other one. -/
theorem model_of_misled :
    Session.misled.model? ⟨5⟩ = .ok (some [(0, true), (1, false)]) ∧
      Session.misled.table.function ⟨5⟩ (completion [(0, true), (1, false)]) = true ∧
      Exceeds (completion [(0, true), (1, false)]) (completion [(0, false)]) := by
  have found : Session.misled.model? ⟨5⟩ = .ok (some [(0, true), (1, false)]) := by
    decide +kernel
  have known : Session.misled.contains ⟨5⟩ = true := by decide
  obtain ⟨answer, answered, _, greatest⟩ := model_of_reachable Session.reachable_misled known
  rw [found] at answered
  cases answered
  obtain ⟨_, models, agrees, exceeds⟩ := greatest _ rfl
  have other : Session.misled.table.function ⟨5⟩ (completion [(0, false)]) = true := by
    decide +kernel
  refine ⟨found, models _ agrees, exceeds _ other ?_⟩
  intro same
  have values := congrFun same 0
  simp [completion] at values

end DecisionDiagram
