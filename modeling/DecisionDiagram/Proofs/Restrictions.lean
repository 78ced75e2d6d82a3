import DecisionDiagram.Proofs.Canonicity
import DecisionDiagram.Proofs.Shape

/-!
# Restrictions

When all variables below a bound are fixed, a function of the later ones remains.  The
subdiagrams of a canonical diagram stand for exactly the functions that can remain of its own.
So a function alone decides how many ids it leads to, in whatever manager and under whatever
id it is found.
-/

namespace DecisionDiagram

/-! ## Fixed variables -/

/-- The assignment with the values of another one for all variables below a bound. -/
def overlay (bound : Nat) (values assignment : Assignment) : Assignment :=
  fun var => if var.toNat < bound then values var else assignment var

/-- The function with all variables below a bound fixed. -/
def restriction (function : Assignment → Bool) (bound : Nat) (values : Assignment) :
    Assignment → Bool :=
  fun assignment => function (overlay bound values assignment)

/-- All that can remain of a function, whatever the bound and the values. -/
def restrictions (function : Assignment → Bool) : Set (Assignment → Bool) :=
  { remaining | ∃ bound values, remaining = restriction function bound values }

section Overlay

variable {bound : Nat} {values assignment : Assignment} {var : Var} {value : Bool}

theorem overlay_of_lt (below : var.toNat < bound) :
    overlay bound values assignment var = values var :=
  if_pos below

theorem update_overlay (below : var.toNat < bound) :
    Function.update (overlay bound values assignment) var value =
      overlay bound (Function.update values var value) assignment := by
  funext other
  by_cases same : other = var
  · rw [same, Function.update_self, overlay_of_lt below, Function.update_self]
  · rw [Function.update_of_ne same, overlay, overlay, Function.update_of_ne same]

/-- Fixing one variable first and those below a bound then is fixing all of them at once. -/
theorem restriction_of_selects {function branch : Assignment → Bool}
    (selects : ∀ assignment, branch assignment = function (Function.update assignment var value))
    (below : var.toNat < bound) :
    restriction branch bound values =
      restriction function bound (Function.update values var value) := by
  funext assignment
  rw [restriction, selects, update_overlay below, restriction]

end Overlay

/-! ## Subdiagrams -/

namespace Diagram

variable {diagram inner low high : Diagram} {bound : Nat} {values : Assignment} {var : Var}
variable {value : Bool}

theorem Canonical.of_mem_subdiagrams (canonical : diagram.Canonical)
    (member : inner ∈ diagram.subdiagrams) : inner.Canonical := by
  induction canonical with
  | constant value =>
      obtain rfl : inner = .constant value := by simpa [subdiagrams] using member
      exact .constant value
  | decision lowAfter highAfter different lowCanonical highCanonical lowIH highIH =>
      rcases mem_subdiagrams_decision.1 member with rfl | below | below
      · exact .decision lowAfter highAfter different lowCanonical highCanonical
      · exact lowIH below
      · exact highIH below

theorem Canonical.top_le_of_mem_subdiagrams (canonical : diagram.Canonical)
    (member : inner ∈ diagram.subdiagrams) : diagram.top ≤ inner.top := by
  induction canonical with
  | constant value =>
      obtain rfl : inner = .constant value := by simpa [subdiagrams] using member
      exact UInt32.le_refl _
  | decision lowAfter highAfter _ _ _ lowIH highIH =>
      rcases mem_subdiagrams_decision.1 member with rfl | below | below
      · exact UInt32.le_refl _
      · exact UInt32.le_of_lt (UInt32.lt_of_lt_of_le lowAfter (lowIH below))
      · exact UInt32.le_of_lt (UInt32.lt_of_lt_of_le highAfter (highIH below))

/-- Every canonical diagram but one constant leads to the other one. -/
theorem Canonical.constant_mem_subdiagrams (canonical : diagram.Canonical)
    (proper : diagram ≠ .constant (!value)) : .constant value ∈ diagram.subdiagrams := by
  induction canonical with
  | constant other =>
      have same : other = value := by
        cases other <;> cases value <;> simp at proper ⊢
      rw [same]
      exact mem_subdiagrams_self _
  | @decision var low high _ _ different _ _ lowIH highIH =>
      rw [mem_subdiagrams_decision]
      by_cases lowConstant : low = .constant (!value)
      · exact .inr (.inr (highIH fun same => different (lowConstant.trans same.symm)))
      · exact .inr (.inl (lowIH lowConstant))

theorem Canonical.injOn_eval_subdiagrams (canonical : diagram.Canonical) :
    Set.InjOn eval (diagram.subdiagrams : Set Diagram) := by
  intro left leftMember right rightMember same
  exact (canonical.of_mem_subdiagrams leftMember).eq_of_eval_eq
    (canonical.of_mem_subdiagrams rightMember) same

/-! ## Restrictions of canonical diagrams -/

/-- Variables before the first test do not matter. -/
theorem Canonical.restriction_of_le (canonical : diagram.Canonical)
    (above : bound ≤ diagram.top.toNat) : restriction diagram.eval bound values = diagram.eval := by
  funext assignment
  apply canonical.eval_congr
  intro var after _
  have before := Nat.le_trans above (UInt32.le_iff_toNat_le.1 after)
  exact if_neg (Nat.not_lt.2 before)

/-- A test that is fixed selects its branch. -/
theorem restriction_decision_of_lt (below : var.toNat < bound) :
    restriction (decision var low high).eval bound values =
      restriction (if values var then high else low).eval bound values := by
  funext assignment
  rw [restriction, eval, overlay_of_lt below]
  cases values var <;> rfl

/-- What remains of a canonical diagram's function is the function of a subdiagram. -/
theorem Canonical.exists_subdiagram (canonical : diagram.Canonical) (bound : Nat)
    (values : Assignment) :
    ∃ inner ∈ diagram.subdiagrams, inner.eval = restriction diagram.eval bound values := by
  induction canonical with
  | constant value => exact ⟨.constant value, mem_subdiagrams_self _, rfl⟩
  | @decision var low high lowAfter highAfter different lowCanonical highCanonical lowIH highIH =>
      have canonical := Canonical.decision lowAfter highAfter different lowCanonical highCanonical
      by_cases below : var.toNat < bound
      case neg =>
        refine ⟨_, mem_subdiagrams_self _, (canonical.restriction_of_le ?_).symm⟩
        exact Nat.not_lt.1 below
      rw [restriction_decision_of_lt below]
      cases values var with
      | false =>
          obtain ⟨inner, member, same⟩ := lowIH
          exact ⟨inner, mem_subdiagrams_decision.2 (.inr (.inl member)), same⟩
      | true =>
          obtain ⟨inner, member, same⟩ := highIH
          exact ⟨inner, mem_subdiagrams_decision.2 (.inr (.inr member)), same⟩

/-- The function of a subdiagram remains when the variables before its first test are fixed
as the way to it demands. -/
theorem Canonical.exists_values (canonical : diagram.Canonical)
    (member : inner ∈ diagram.subdiagrams) :
    ∃ values, inner.eval = restriction diagram.eval inner.top.toNat values := by
  induction canonical with
  | constant value =>
      obtain rfl : inner = .constant value := by simpa [subdiagrams] using member
      exact ⟨fun _ => false, rfl⟩
  | @decision var low high lowAfter highAfter different lowCanonical highCanonical lowIH highIH =>
      have canonical := Canonical.decision lowAfter highAfter different lowCanonical highCanonical
      rcases mem_subdiagrams_decision.1 member with rfl | below | below
      · exact ⟨fun _ => false, (canonical.restriction_of_le (Nat.le_refl _)).symm⟩
      · obtain ⟨values, same⟩ := lowIH below
        have before : var < inner.top :=
          UInt32.lt_of_lt_of_le lowAfter (lowCanonical.top_le_of_mem_subdiagrams below)
        rw [same]
        exact ⟨_, restriction_of_selects canonical.eval_low (UInt32.lt_iff_toNat_lt.1 before)⟩
      · obtain ⟨values, same⟩ := highIH below
        have before : var < inner.top :=
          UInt32.lt_of_lt_of_le highAfter (highCanonical.top_le_of_mem_subdiagrams below)
        rw [same]
        exact ⟨_, restriction_of_selects canonical.eval_high (UInt32.lt_iff_toNat_lt.1 before)⟩

theorem Canonical.restrictions_eq (canonical : diagram.Canonical) :
    restrictions diagram.eval = eval '' (diagram.subdiagrams : Set Diagram) := by
  ext remaining
  constructor
  · rintro ⟨bound, values, rfl⟩
    exact canonical.exists_subdiagram bound values
  · rintro ⟨inner, member, rfl⟩
    obtain ⟨values, same⟩ := canonical.exists_values member
    exact ⟨_, values, same⟩

theorem Canonical.finite_restrictions (canonical : diagram.Canonical) :
    (restrictions diagram.eval).Finite := by
  rw [canonical.restrictions_eq]
  exact diagram.subdiagrams.finite_toSet.image eval

theorem Canonical.ncard_restrictions (canonical : diagram.Canonical) :
    (restrictions diagram.eval).ncard = diagram.subdiagrams.card := by
  rw [canonical.restrictions_eq, canonical.injOn_eval_subdiagrams.ncard_image,
    Set.ncard_coe_finset]

end Diagram

/-! ## Descendants of known ids -/

/-- The ids of a diagram's subdiagrams correspond one to one to what can remain of its
function. -/
theorem UniqueTable.WellFormed.bijOn_restrictions {table : UniqueTable} {ref : Ref}
    {diagram : Diagram} (wellFormed : table.WellFormed)
    (represents : table.Represents ref diagram) :
    Set.BijOn table.function
      { other | ∃ inner ∈ diagram.subdiagrams, table.Represents other inner }
      (restrictions diagram.eval) := by
  rw [(wellFormed.canonical represents).restrictions_eq]
  refine ⟨?mapsTo, ?injOn, ?surjOn⟩
  case mapsTo =>
    rintro other ⟨inner, inside, unfolds⟩
    exact ⟨inner, inside, (wellFormed.function_eq unfolds).symm⟩
  case injOn =>
    rintro left ⟨_, _, leftUnfolds⟩ right ⟨_, _, rightUnfolds⟩ equal
    exact wellFormed.ref_eq_of_function_eq leftUnfolds.knows rightUnfolds.knows equal
  case surjOn =>
    rintro _ ⟨inner, inside, rfl⟩
    obtain ⟨other, unfolds⟩ := represents.subdiagrams_subset inside
    exact ⟨other, ⟨inner, inside, unfolds⟩, wellFormed.function_eq unfolds⟩

namespace Manager

variable {manager : Manager} {ref : Ref} {diagram : Diagram}

/-- The descendants of an id are the ids of its subdiagrams. -/
theorem descendants_of_represents (searchable : manager.table.Searchable)
    (represents : manager.table.Represents ref diagram) :
    ∃ reached, manager.descendants [ref] = .ok reached ∧ ∀ other, other ∈ reached ↔
      ∃ inner ∈ diagram.subdiagrams, manager.table.Represents other inner := by
  have leads := fun other => @reaches_iff manager ref other diagram searchable represents
  obtain ⟨reached, listed, _, members⟩ := exists_descendants searchable fun other reaches => by
    obtain ⟨_, _, unfolds⟩ := (leads other).1 reaches
    exact unfolds.knows
  exact ⟨reached, listed, fun other => (members other).trans (leads other)⟩

theorem size_of_restrictions (wellFormed : manager.table.WellFormed)
    (known : manager.contains ref = true) :
    manager.size ref = .ok (restrictions (manager.table.function ref)).ncard := by
  obtain ⟨diagram, represents⟩ :=
    wellFormed.exists_represents (contains_iff_knows.1 known)
  rw [size_of_represents wellFormed represents, wellFormed.function_eq represents,
    (wellFormed.canonical represents).ncard_restrictions]

end Manager

/-- The descendants of a known id correspond one to one to what can remain of its function when
all variables below some bound are fixed.  So the size of an id is the number of these
functions, which is the same in every other manager, and a decision node leads to both
constants. -/
theorem restrictions_of_reachable {manager : Manager} (reachable : manager.Reachable Call.isSafe)
    {ref : Ref} (known : manager.contains ref = true) :
    let function := manager.table.function ref
    ∃ reached, manager.descendants [ref] = .ok reached ∧
      Set.BijOn manager.table.function { other | other ∈ reached } (restrictions function) ∧
      (restrictions function).Finite ∧
      manager.size ref = .ok (restrictions function).ncard ∧
      (∀ (other : Manager) (twin : Ref), other.Reachable Call.isSafe →
        other.contains twin = true → other.table.function twin = function →
        other.size twin = manager.size ref) ∧
      (ref.isTerminal = false → .falseRef ∈ reached ∧ .trueRef ∈ reached) := by
  intro function
  have wellFormed := reachable.wellFormed
  obtain ⟨diagram, represents⟩ :=
    wellFormed.exists_represents (Manager.contains_iff_knows.1 known)
  have canonical := wellFormed.canonical represents
  have same : function = diagram.eval := wellFormed.function_eq represents
  obtain ⟨reached, listed, members⟩ :=
    Manager.descendants_of_represents wellFormed.searchable represents
  have size := Manager.size_of_restrictions wellFormed known
  refine ⟨reached, listed, ?correspondence, ?finite, size, ?twins, ?constants⟩
  case correspondence =>
    simp only [members, same]
    exact wellFormed.bijOn_restrictions represents
  case finite =>
    rw [same]
    exact canonical.finite_restrictions
  case twins =>
    intro other twin otherReachable twinKnown equal
    rw [size, Manager.size_of_restrictions otherReachable.wellFormed twinKnown, equal]
  case constants =>
    intro decision
    have constant : ∀ value, .ofBool value ∈ reached := by
      intro value
      refine (members _).2 ⟨.constant value, canonical.constant_mem_subdiagrams ?_,
        UniqueTable.represents_constant.2 rfl⟩
      intro constant
      rw [constant, UniqueTable.represents_constant] at represents
      rw [represents] at decision
      cases value <;> cases decision
    exact ⟨constant false, constant true⟩

/-- The exclusive disjunction of two variables leads to five functions, two of them constants,
also in a manager in which it has another id. -/
theorem restrictions_of_misled :
    let function := Session.misled.table.function ⟨5⟩
    let other := Session.fresh.run [.makeNegatedVar 1, .makeVar 1, .makeVar 4, .make 0 ⟨4⟩ ⟨3⟩]
    (restrictions function).ncard = 5 ∧ other.table.function ⟨2⟩ = function ∧
      other.size ⟨2⟩ = .ok 5 ∧ ∃ reached, Session.misled.descendants [⟨5⟩] = .ok reached ∧
        .falseRef ∈ reached ∧ .trueRef ∈ reached := by
  intro function other
  have known : Session.misled.contains ⟨5⟩ = true := by decide
  obtain ⟨reached, listed, _, _, size, twins, constants⟩ :=
    restrictions_of_reachable Session.reachable_misled known
  have reachable : other.toManager.Reachable Call.isSafe :=
    (Session.reachable_fresh Call.isSafe).run _ (by decide)
  let exclusive : Diagram := .decision 0 (.decision 1 (.constant false) (.constant true))
    (.decision 1 (.constant true) (.constant false))
  have represents : Session.misled.table.Represents ⟨5⟩ exclusive :=
    ⟨⟨0, ⟨3⟩, ⟨4⟩⟩, by decide, rfl, ⟨⟨1, ⟨0⟩, ⟨1⟩⟩, by decide, rfl, rfl, rfl⟩,
      ⟨⟨1, ⟨1⟩, ⟨0⟩⟩, by decide, rfl, rfl, rfl⟩⟩
  have otherRepresents : other.table.Represents ⟨2⟩ exclusive :=
    ⟨⟨0, ⟨4⟩, ⟨3⟩⟩, by decide, rfl, ⟨⟨1, ⟨0⟩, ⟨1⟩⟩, by decide, rfl, rfl, rfl⟩,
      ⟨⟨1, ⟨1⟩, ⟨0⟩⟩, by decide, rfl, rfl, rfl⟩⟩
  have five : Session.misled.size ⟨5⟩ = .ok 5 := by
    have count : exclusive.subdiagrams.card = 5 := by decide
    rw [Manager.size_of_represents Session.reachable_misled.wellFormed represents, count]
  have equal : other.table.function ⟨2⟩ = function :=
    reachable.wellFormed.function_eq_of_represents Session.reachable_misled.wellFormed
      otherRepresents represents
  have same := twins other.toManager ⟨2⟩ reachable (by decide) equal
  rw [five] at size same
  exact ⟨(Except.ok.inj size).symm, equal, same, reached, listed, constants rfl⟩

end DecisionDiagram
