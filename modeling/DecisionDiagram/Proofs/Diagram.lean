import DecisionDiagram.Variable
import Mathlib.Logic.Function.Basic

/-!
# Diagrams as trees

A decision diagram with its sharing undone is a binary tree.  A tree is canonical
when tests descend in ascending order and no test is redundant.  Canonical trees
correspond one to one to the boolean functions of the usable variables, which makes
them the meaning of the ids of a manager and the reference for every operator.
-/

namespace DecisionDiagram

abbrev Assignment := Var → Bool

/-- A decision diagram without sharing. -/
inductive Diagram where
  | constant (value : Bool)
  | decision (var : Var) (low high : Diagram)
  deriving DecidableEq, Repr

namespace Diagram

variable {diagram left right low high : Diagram} {var : Var} {value : Bool}
variable {assignment : Assignment}

def eval : Diagram → Assignment → Bool
  | .constant value, _ => value
  | .decision var low high, assignment =>
      if assignment var then high.eval assignment else low.eval assignment

/-- The variable tested first; for constants `terminalVar`. -/
def top : Diagram → Var
  | .constant _ => terminalVar
  | .decision var _ _ => var

/-- The number of tests on a longest path. -/
def height : Diagram → Nat
  | .constant _ => 0
  | .decision _ low high => max low.height high.height + 1

/-- Tests descend in ascending order, and the branches of a test differ. -/
inductive Canonical : Diagram → Prop where
  | constant (value : Bool) : Canonical (.constant value)
  | decision {var : Var} {low high : Diagram} :
      var < low.top → var < high.top → low ≠ high →
      Canonical low → Canonical high → Canonical (.decision var low high)

/-- What remains of a diagram when a variable is fixed that is not tested below
its top. -/
def cofactor (diagram : Diagram) (var : Var) (value : Bool) : Diagram :=
  match diagram with
  | .constant _ => diagram
  | .decision tested low high =>
      if tested = var then (if value then high else low) else diagram

/-- A test on a variable, left out when its branches agree. -/
def reduce (var : Var) (low high : Diagram) : Diagram :=
  if low = high then low else .decision var low high

@[simp] theorem eval_constant (value : Bool) (assignment : Assignment) :
    (constant value).eval assignment = value := rfl

@[simp] theorem top_constant (value : Bool) : (constant value).top = terminalVar := rfl

@[simp] theorem top_decision (var : Var) (low high : Diagram) :
    (decision var low high).top = var := rfl

@[simp] theorem cofactor_decision_self (var : Var) (low high : Diagram) (value : Bool) :
    (decision var low high).cofactor var value = if value then high else low := by
  simp [cofactor]

theorem cofactor_of_lt (above : var < diagram.top) : diagram.cofactor var value = diagram := by
  cases diagram with
  | constant _ => rfl
  | decision tested low high =>
      have different : tested ≠ var := by
        rintro rfl
        exact UInt32.lt_irrefl _ above
      simp [cofactor, different]

/-- Every test on a path takes a variable of its own. -/
theorem Canonical.height_add_top_le (canonical : diagram.Canonical) :
    diagram.height + diagram.top.toNat ≤ terminalVar.toNat := by
  induction canonical with
  | constant value => exact Nat.le_of_eq (Nat.zero_add _)
  | decision lowAfter highAfter _ _ _ lowIH highIH =>
      rw [UInt32.lt_iff_toNat_lt] at lowAfter highAfter
      simp only [height, top_decision]
      omega

/-! ## Dependence on variables -/

/-- A canonical diagram depends on usable variables from its top on only. -/
theorem Canonical.eval_congr (canonical : diagram.Canonical) {first second : Assignment}
    (agree : ∀ var, diagram.top ≤ var → var < terminalVar → first var = second var) :
    diagram.eval first = diagram.eval second := by
  induction canonical with
  | constant => rfl
  | @decision var low high lowAfter highAfter _ _ _ lowIH highIH =>
      have usable : var < terminalVar := UInt32.lt_of_lt_of_le lowAfter (le_terminalVar _)
      have lowEqual := lowIH fun other after =>
        agree other (UInt32.le_of_lt (UInt32.lt_of_lt_of_le lowAfter after))
      have highEqual := highIH fun other after =>
        agree other (UInt32.le_of_lt (UInt32.lt_of_lt_of_le highAfter after))
      simp only [eval]
      rw [agree var (UInt32.le_refl _) usable, lowEqual, highEqual]

theorem Canonical.eval_update (canonical : diagram.Canonical) (above : var < diagram.top) :
    diagram.eval (Function.update assignment var value) = diagram.eval assignment := by
  apply canonical.eval_congr
  intro other after _
  apply Function.update_of_ne
  rintro rfl
  exact UInt32.not_lt.2 after above

/-! ## Cofactors -/

theorem Canonical.cofactor (canonical : diagram.Canonical) (var : Var) (value : Bool) :
    (diagram.cofactor var value).Canonical := by
  cases canonical with
  | constant constant => exact .constant constant
  | decision lowAfter highAfter different lowCanonical highCanonical =>
      simp only [Diagram.cofactor]
      split
      · cases value
        · exact lowCanonical
        · exact highCanonical
      · exact .decision lowAfter highAfter different lowCanonical highCanonical

/-- Fixing a variable that is tested at the top or not at all leaves tests of later
variables only. -/
theorem Canonical.lt_top_cofactor (canonical : diagram.Canonical) (usable : var < terminalVar)
    (above : var ≤ diagram.top) (value : Bool) : var < (diagram.cofactor var value).top := by
  by_cases tested : diagram.top = var
  · cases canonical with
    | constant => exact usable
    | decision lowAfter highAfter =>
        cases tested
        cases value
        · simpa using lowAfter
        · simpa using highAfter
  · have strictly : var < diagram.top := UInt32.lt_of_le_of_ne above (Ne.symm tested)
    rwa [cofactor_of_lt strictly]

theorem Canonical.eval_cofactor (canonical : diagram.Canonical) (above : var ≤ diagram.top)
    (value : Bool) (assignment : Assignment) :
    (diagram.cofactor var value).eval assignment =
      diagram.eval (Function.update assignment var value) := by
  by_cases tested : diagram.top = var
  · cases canonical with
    | constant => rfl
    | decision lowAfter highAfter _ lowCanonical highCanonical =>
        cases tested
        simp only [top_decision, cofactor_decision_self, eval, Function.update_self]
        cases value
        · exact (lowCanonical.eval_update lowAfter).symm
        · exact (highCanonical.eval_update highAfter).symm
  · have strictly : var < diagram.top := UInt32.lt_of_le_of_ne above (Ne.symm tested)
    rw [cofactor_of_lt strictly, canonical.eval_update strictly]

theorem Canonical.eval_low (canonical : (Diagram.decision var low high).Canonical)
    (assignment : Assignment) :
    low.eval assignment =
      (Diagram.decision var low high).eval (Function.update assignment var false) := by
  have branch := canonical.eval_cofactor (UInt32.le_refl var) false assignment
  simpa using branch

theorem Canonical.eval_high (canonical : (Diagram.decision var low high).Canonical)
    (assignment : Assignment) :
    high.eval assignment =
      (Diagram.decision var low high).eval (Function.update assignment var true) := by
  have branch := canonical.eval_cofactor (UInt32.le_refl var) true assignment
  simpa using branch

/-! ## Uniqueness -/

/-- A diagram that does not depend on a variable differs from no branch of a test on
it: if it agrees with the test, it agrees with both branches. -/
theorem Canonical.eval_branches_eq (canonical : (Diagram.decision var low high).Canonical)
    (otherCanonical : right.Canonical) (otherAfter : var < right.top)
    (same : (Diagram.decision var low high).eval = right.eval) :
    low.eval = right.eval ∧ high.eval = right.eval := by
  constructor
  · funext assignment
    rw [canonical.eval_low, same, otherCanonical.eval_update otherAfter]
  · funext assignment
    rw [canonical.eval_high, same, otherCanonical.eval_update otherAfter]

/-- Canonical diagrams of one function are the same diagram: if one of them tested a variable first
that the other one does not test, its branches would be equal. -/
theorem Canonical.eq_of_eval_eq (leftCanonical : left.Canonical) (rightCanonical : right.Canonical)
    (same : left.eval = right.eval) : left = right := by
  induction leftCanonical generalizing right with
  | constant value =>
      induction rightCanonical with
      | constant other =>
          have equal := congrFun same fun _ => false
          simpa using equal
      | decision lowAfter highAfter different lowCanonical highCanonical lowIH highIH =>
          have rightCanonical :=
            Canonical.decision lowAfter highAfter different lowCanonical highCanonical
          obtain ⟨lowSame, highSame⟩ := rightCanonical.eval_branches_eq (.constant value)
            (UInt32.lt_of_lt_of_le lowAfter (le_terminalVar _)) same.symm
          exact absurd ((lowIH lowSame.symm).symm.trans (highIH highSame.symm)) different
  | @decision var low high lowAfter highAfter different lowCanonical highCanonical lowIH highIH =>
      have leftCanonical :=
        Canonical.decision lowAfter highAfter different lowCanonical highCanonical
      induction rightCanonical with
      | constant value =>
          obtain ⟨lowSame, highSame⟩ := leftCanonical.eval_branches_eq (.constant value)
            (UInt32.lt_of_lt_of_le lowAfter (le_terminalVar _)) same
          exact absurd ((lowIH (.constant value) lowSame).trans
            (highIH (.constant value) highSame).symm) different
      | @decision otherVar otherLow otherHigh otherLowAfter otherHighAfter otherDifferent
          otherLowCanonical otherHighCanonical otherLowIH otherHighIH =>
          have rightCanonical := Canonical.decision otherLowAfter otherHighAfter otherDifferent
            otherLowCanonical otherHighCanonical
          by_cases before : var < otherVar
          · obtain ⟨lowSame, highSame⟩ :=
              leftCanonical.eval_branches_eq rightCanonical before same
            exact absurd ((lowIH rightCanonical lowSame).trans
              (highIH rightCanonical highSame).symm) different
          by_cases after : otherVar < var
          · obtain ⟨lowSame, highSame⟩ :=
              rightCanonical.eval_branches_eq leftCanonical after same.symm
            exact absurd ((otherLowIH lowSame.symm).symm.trans
              (otherHighIH highSame.symm)) otherDifferent
          · obtain rfl : var = otherVar :=
              UInt32.le_antisymm (UInt32.not_lt.1 after) (UInt32.not_lt.1 before)
            have lowEqual : low = otherLow := lowIH otherLowCanonical (by
              funext assignment
              rw [leftCanonical.eval_low, same, rightCanonical.eval_low])
            have highEqual : high = otherHigh := highIH otherHighCanonical (by
              funext assignment
              rw [leftCanonical.eval_high, same, rightCanonical.eval_high])
            rw [lowEqual, highEqual]

/-- A canonical diagram depends on its top, so variables on which a function does
not depend lie above. -/
theorem Canonical.le_top_of_eval_update (canonical : diagram.Canonical)
    (independent : ∀ other < var, ∀ assignment value,
      diagram.eval (Function.update assignment other value) = diagram.eval assignment) :
    var ≤ diagram.top := by
  cases canonical with
  | constant => exact le_terminalVar _
  | @decision tested low high lowAfter highAfter different lowCanonical highCanonical =>
      apply UInt32.not_lt.1
      intro tooSoon
      apply different
      apply lowCanonical.eq_of_eval_eq highCanonical
      funext assignment
      have canonical := Canonical.decision lowAfter highAfter different lowCanonical highCanonical
      rw [canonical.eval_low, canonical.eval_high, independent tested tooSoon,
        independent tested tooSoon]

/-! ## Existence -/

theorem canonical_reduce (lowAfter : var < low.top) (highAfter : var < high.top)
    (lowCanonical : low.Canonical) (highCanonical : high.Canonical) :
    (reduce var low high).Canonical := by
  simp only [reduce]
  split
  case isTrue => exact lowCanonical
  case isFalse different => exact .decision lowAfter highAfter different lowCanonical highCanonical

theorem eval_reduce (var : Var) (low high : Diagram) (assignment : Assignment) :
    (reduce var low high).eval assignment =
      if assignment var then high.eval assignment else low.eval assignment := by
  simp only [reduce]
  split
  case isTrue same => simp [same]
  case isFalse => rfl

theorem le_top_reduce (lowAfter : var < low.top) : var ≤ (reduce var low high).top := by
  simp only [reduce]
  split
  · exact UInt32.le_of_lt lowAfter
  · exact UInt32.le_refl _

/-- The canonical diagram of a function of the last usable variables, so many of
them, by expansion at the first one. -/
theorem exists_canonical_from (remaining : Nat) (first : Var) (function : Assignment → Bool)
    (count : first.toNat + remaining = terminalVar.toNat)
    (depends : ∀ left right : Assignment,
      (∀ var, first ≤ var → var < terminalVar → left var = right var) →
      function left = function right) :
    ∃ diagram : Diagram, diagram.Canonical ∧ first ≤ diagram.top ∧ diagram.eval = function := by
  induction remaining generalizing first function with
  | zero =>
      refine ⟨.constant (function fun _ => false), .constant _, le_terminalVar _, ?_⟩
      funext assignment
      apply depends
      intro var after usable
      rw [UInt32.le_iff_toNat_le] at after
      rw [UInt32.lt_iff_toNat_lt] at usable
      omega
  | succ remaining ih =>
      have bound : terminalVar.toNat = 2 ^ 32 - 1 := rfl
      let next : Var := UInt32.ofNat (first.toNat + 1)
      have nextValue : next.toNat = first.toNat + 1 :=
        UInt32.toNat_ofNat_of_lt' (show first.toNat + 1 < 2 ^ 32 by omega)
      have branch : ∀ value, ∃ diagram : Diagram, diagram.Canonical ∧ next ≤ diagram.top ∧
          diagram.eval = fun assignment => function (Function.update assignment first value) := by
        intro value
        apply ih next
        · omega
        · intro left right agree
          apply depends
          intro var after usable
          by_cases same : var = first
          · simp [same]
          · rw [Function.update_of_ne same, Function.update_of_ne same]
            apply agree var _ usable
            rw [UInt32.le_iff_toNat_le] at after ⊢
            have : var.toNat ≠ first.toNat := fun equal => same (UInt32.toNat_inj.1 equal)
            omega
      have afterFirst : ∀ {diagram : Diagram}, next ≤ diagram.top → first < diagram.top := by
        intro diagram after
        rw [UInt32.le_iff_toNat_le] at after
        rw [UInt32.lt_iff_toNat_lt]
        omega
      obtain ⟨low, lowCanonical, lowAfter, lowEval⟩ := branch false
      obtain ⟨high, highCanonical, highAfter, highEval⟩ := branch true
      refine ⟨reduce first low high,
        canonical_reduce (afterFirst lowAfter) (afterFirst highAfter) lowCanonical highCanonical,
        le_top_reduce (afterFirst lowAfter), ?_⟩
      funext assignment
      simp only [eval_reduce, lowEval, highEval]
      split
      case isTrue known => rw [← known, Function.update_eq_self]
      case isFalse known =>
        rw [← Bool.eq_false_iff.2 known, Function.update_eq_self]

/-- Every function of the usable variables has exactly one canonical diagram. -/
theorem existsUnique_canonical (function : Assignment → Bool)
    (depends : ∀ left right : Assignment, (∀ var < terminalVar, left var = right var) →
      function left = function right) :
    ∃! diagram : Diagram, diagram.Canonical ∧ diagram.eval = function := by
  obtain ⟨diagram, canonical, _, same⟩ := exists_canonical_from terminalVar.toNat 0 function
    (by simp) fun left right agree => depends left right fun var => agree var (UInt32.zero_le)
  refine ⟨diagram, ⟨canonical, same⟩, ?_⟩
  rintro other ⟨otherCanonical, otherSame⟩
  exact otherCanonical.eq_of_eval_eq canonical (otherSame.trans same.symm)

end Diagram
end DecisionDiagram
