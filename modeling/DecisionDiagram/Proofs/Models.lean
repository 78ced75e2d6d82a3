import DecisionDiagram.Proofs.Canonicity
import DecisionDiagram.Proofs.Shape
import Mathlib.Data.FinEnum
import Mathlib.Data.Set.Card

/-!
# Counts of models

Over a finite domain a function has as many models as there are choices of values for the
domain's variables that make it true, provided that no other variable matters.  A canonical
diagram tests exactly the variables that matter.  So its count is exact if they all belong to
the domain, and otherwise counting meets a test on a variable that does not.
-/

namespace DecisionDiagram

/-! ## Variables that matter -/

/-- Changing the variable alone can change the function's value. -/
def DependsOn (function : Assignment → Bool) (var : Var) : Prop :=
  ∃ assignment, function (Function.update assignment var false) ≠
    function (Function.update assignment var true)

namespace Diagram

variable {diagram low high : Diagram} {var tested : Var} {first second assignment : Assignment}

/-- The variables that are tested somewhere. -/
def support : Diagram → Finset Var
  | .constant _ => ∅
  | .decision var low high => insert var (low.support ∪ high.support)

@[simp] theorem mem_support_decision :
    tested ∈ (decision var low high).support ↔
      tested = var ∨ tested ∈ low.support ∨ tested ∈ high.support := by
  simp [support]

theorem top_mem_support (proper : diagram.top ≠ terminalVar) : diagram.top ∈ diagram.support := by
  cases diagram with
  | constant value => exact absurd rfl proper
  | decision var low high => exact mem_support_decision.2 (.inl rfl)

/-- Variables that are not tested do not matter. -/
theorem eval_congr_of_support (agree : ∀ var ∈ diagram.support, first var = second var) :
    diagram.eval first = diagram.eval second := by
  induction diagram with
  | constant value => rfl
  | decision var low high lowIH highIH =>
      have lowSame := lowIH fun other member =>
        agree other (mem_support_decision.2 (.inr (.inl member)))
      have highSame := highIH fun other member =>
        agree other (mem_support_decision.2 (.inr (.inr member)))
      simp only [eval, agree var (mem_support_decision.2 (.inl rfl)), lowSame, highSame]

theorem eval_update_of_notMem_support (untested : var ∉ diagram.support) (value : Bool) :
    diagram.eval (Function.update assignment var value) = diagram.eval assignment := by
  apply eval_congr_of_support
  intro other member
  apply Function.update_of_ne
  rintro rfl
  exact untested member

theorem Canonical.top_le_of_mem_support (canonical : diagram.Canonical)
    (member : tested ∈ diagram.support) : diagram.top ≤ tested := by
  induction canonical with
  | constant value => simp [support] at member
  | decision lowAfter highAfter _ _ _ lowIH highIH =>
      rcases mem_support_decision.1 member with rfl | below | below
      · exact UInt32.le_refl _
      · exact UInt32.le_of_lt (UInt32.lt_of_lt_of_le lowAfter (lowIH below))
      · exact UInt32.le_of_lt (UInt32.lt_of_lt_of_le highAfter (highIH below))

/-- In a canonical diagram every tested variable matters. -/
theorem Canonical.dependsOn_of_mem_support (canonical : diagram.Canonical)
    (member : tested ∈ diagram.support) : DependsOn diagram.eval tested := by
  induction canonical with
  | constant value => simp [support] at member
  | @decision var low high lowAfter highAfter different lowCanonical highCanonical lowIH highIH =>
      have canonical := Canonical.decision lowAfter highAfter different lowCanonical highCanonical
      have below : ∀ {branch : Diagram} (value : Bool), branch.Canonical → var < branch.top →
          (∀ assignment, branch.eval assignment =
            (Diagram.decision var low high).eval (Function.update assignment var value)) →
          tested ∈ branch.support → DependsOn branch.eval tested →
          DependsOn (Diagram.decision var low high).eval tested := by
        intro branch value branchCanonical after selects inside depends
        obtain ⟨assignment, matters⟩ := depends
        have distinct : tested ≠ var := by
          rintro rfl
          exact UInt32.not_lt.2 (branchCanonical.top_le_of_mem_support inside) after
        refine ⟨Function.update assignment var value, ?_⟩
        rwa [Function.update_comm distinct.symm, Function.update_comm distinct.symm, ← selects,
          ← selects]
      rcases mem_support_decision.1 member with rfl | inLow | inHigh
      · have unequal : low.eval ≠ high.eval :=
          mt (lowCanonical.eq_of_eval_eq highCanonical) different
        obtain ⟨assignment, matters⟩ := Function.ne_iff.1 unequal
        refine ⟨assignment, ?_⟩
        rwa [← canonical.eval_low, ← canonical.eval_high]
      · exact below false lowCanonical lowAfter canonical.eval_low inLow (lowIH inLow)
      · exact below true highCanonical highAfter canonical.eval_high inHigh (highIH inHigh)

theorem Canonical.dependsOn_iff (canonical : diagram.Canonical) :
    DependsOn diagram.eval tested ↔ tested ∈ diagram.support := by
  constructor
  · intro depends
    obtain ⟨assignment, matters⟩ := depends
    by_contra untested
    rw [eval_update_of_notMem_support untested, eval_update_of_notMem_support untested] at matters
    exact matters rfl
  · exact canonical.dependsOn_of_mem_support

end Diagram

/-! ## Models over a list of variables -/

section Models

variable {function : Assignment → Bool} {vars skipped : List Var} {var : Var}

/-- The assignments under which a function is true and only listed variables are. -/
def models (vars : List Var) (function : Assignment → Bool) : Set Assignment :=
  { assignment | function assignment = true ∧ ∀ var ∉ vars, assignment var = false }

def fixed (function : Assignment → Bool) (var : Var) (value : Bool) : Assignment → Bool :=
  fun assignment => function (Function.update assignment var value)

theorem models_nil_constant (value : Bool) :
    (models [] fun _ => value).ncard = if value then 1 else 0 := by
  cases value with
  | false => simp [models]
  | true =>
      have one : (models [] fun _ => true) = {fun _ => false} := by
        ext assignment
        simp [models, funext_iff]
      rw [one, Set.ncard_singleton]
      rfl

/-- A model over one variable more has that variable false or true. -/
theorem models_cons (new : var ∉ vars) :
    models (var :: vars) function = models vars (fixed function var false) ∪
      (Function.update · var true) '' models vars (fixed function var true) := by
  ext assignment
  constructor
  · intro model
    obtain ⟨holds, outside⟩ := model
    cases value : assignment var with
    | false =>
        refine .inl ⟨?_, fun other notMember => ?_⟩
        · rwa [fixed, ← value, Function.update_eq_self]
        · by_cases same : other = var
          · rwa [same]
          · exact outside other (by simp [same, notMember])
    | true =>
        have back : Function.update assignment var true = assignment := by
          rw [← value, Function.update_eq_self]
        refine .inr ⟨Function.update assignment var false, ⟨?_, fun other notMember => ?_⟩, ?_⟩
        · rwa [fixed, Function.update_idem, back]
        · by_cases same : other = var
          · rw [same, Function.update_self]
          · rw [Function.update_of_ne same]
            exact outside other (by simp [same, notMember])
        · beta_reduce
          rw [Function.update_idem, back]
  · rintro (⟨holds, outside⟩ | ⟨shorter, ⟨holds, outside⟩, rfl⟩)
    · refine ⟨?_, fun other notMember => outside other fun member => ?_⟩
      · rwa [fixed, ← outside var new, Function.update_eq_self] at holds
      · exact notMember (List.mem_cons_of_mem var member)
    · refine ⟨holds, fun other notMember => ?_⟩
      rw [List.mem_cons, not_or] at notMember
      beta_reduce
      rw [Function.update_of_ne notMember.1]
      exact outside other notMember.2

theorem ncard_models_cons (new : var ∉ vars) :
    (models (var :: vars) function).ncard =
      (models vars (fixed function var false)).ncard +
        (models vars (fixed function var true)).ncard := by
  have falseThere : ∀ {value : Bool}, ∀ assignment ∈ models vars (fixed function var value),
      assignment var = false := fun assignment model => model.2 var new
  have injective : Set.InjOn (Function.update · var true)
      (models vars (fixed function var true)) := by
    intro left leftModel right rightModel same
    funext other
    by_cases equal : other = var
    · rw [equal, falseThere left leftModel, falseThere right rightModel]
    · have values := congrFun same other
      simpa [Function.update_of_ne equal] using values
  have disjoint : Disjoint (models vars (fixed function var false))
      ((Function.update · var true) '' models vars (fixed function var true)) := by
    rw [Set.disjoint_left]
    rintro _ model ⟨shorter, _, rfl⟩
    have value := falseThere _ model
    simp at value
  rw [models_cons new, Set.ncard_union_eq disjoint, injective.ncard_image]

/-- Variables that do not matter double the models one by one. -/
theorem ncard_models_append (distinct : (skipped ++ vars).Nodup)
    (independent : ∀ var ∈ skipped, ∀ value, fixed function var value = function) :
    (models (skipped ++ vars) function).ncard =
      (models vars function).ncard <<< skipped.length := by
  induction skipped with
  | nil => rfl
  | cons var skipped ih =>
      rw [List.cons_append, List.nodup_cons] at distinct
      have rest := ih distinct.2 fun other member =>
        independent other (List.mem_cons_of_mem var member)
      have free := independent var List.mem_cons_self
      rw [List.cons_append, ncard_models_cons distinct.1, free, free, rest, List.length_cons,
        Nat.shiftLeft_succ, Nat.two_mul]

end Models

/-! ## Levels -/

section Levels

variable {domain : List Var} {var first second : Var} {diagram low high : Diagram}

/-- The place of a variable in an ascending list; `terminalVar` comes after all of it. -/
def place (domain : List Var) (var : Var) : Nat :=
  if var = terminalVar then domain.length else domain.idxOf var

theorem place_of_ne (usable : var ≠ terminalVar) : place domain var = domain.idxOf var :=
  if_neg usable

theorem place_le_length (domain : List Var) (var : Var) : place domain var ≤ domain.length := by
  unfold place
  split
  case isTrue => exact Nat.le_refl _
  case isFalse => exact List.idxOf_le_length

theorem levelIn_of_placed (placed : var = terminalVar ∨ var ∈ domain) :
    levelIn domain var = .ok (place domain var) := by
  unfold levelIn place
  split
  case isTrue => rfl
  case isFalse proper =>
    have member := placed.resolve_left proper
    obtain ⟨level, found⟩ := Option.isSome_iff_exists.1 (List.isSome_idxOf?.2 member)
    rw [found, List.idxOf_eq_getD_idxOf?, found]
    rfl

theorem levelIn_of_notMem (usable : var ≠ terminalVar) (missing : var ∉ domain) :
    levelIn domain var = .error (.violation (.outOfDomain var)) := by
  unfold levelIn
  rw [if_neg usable, List.idxOf?_eq_none_iff.2 missing]

theorem drop_place (usable : var ≠ terminalVar) (member : var ∈ domain) :
    domain.drop (place domain var) = var :: domain.drop (place domain var + 1) := by
  have level := List.idxOf_lt_length_iff.2 member
  rw [place_of_ne usable, List.drop_eq_getElem_cons level, List.getElem_idxOf]

theorem nodup_drop (ascending : domain.Pairwise (· < ·)) (start : Nat) :
    (domain.drop start).Nodup :=
  (ascending.imp fun before => UInt32.ne_of_lt before).sublist (List.drop_sublist start domain)

/-- In an ascending list the places are ordered as the variables are. -/
theorem place_lt_place (ascending : domain.Pairwise (· < ·)) (member : first ∈ domain)
    (placed : second = terminalVar ∨ second ∈ domain) (before : first < second) :
    place domain first < place domain second := by
  have firstLevel := List.idxOf_lt_length_iff.2 member
  rw [place_of_ne (ne_terminalVar_of_lt before), place]
  split
  case isTrue => exact firstLevel
  case isFalse proper =>
    have secondMember := placed.resolve_left proper
    have secondLevel := List.idxOf_lt_length_iff.2 secondMember
    by_contra notBefore
    rcases Nat.lt_or_eq_of_le (Nat.not_lt.1 notBefore) with reversed | same
    · have after := List.pairwise_iff_getElem.1 ascending _ _ secondLevel firstLevel reversed
      rw [List.getElem_idxOf, List.getElem_idxOf] at after
      exact UInt32.lt_asymm before after
    · rw [(List.idxOf_inj secondMember).1 same] at before
      exact UInt32.lt_irrefl _ before

end Levels

/-! ## Models from a level on -/

namespace Diagram

variable {domain : List Var} {var : Var} {diagram low high : Diagram}

theorem top_placed (within : ∀ tested ∈ diagram.support, tested ∈ domain) :
    diagram.top = terminalVar ∨ diagram.top ∈ domain := by
  by_cases constant : diagram.top = terminalVar
  · exact .inl constant
  · exact .inr (within _ (top_mem_support constant))

/-- What comes before the first test of a diagram is not tested in it. -/
theorem Canonical.notMem_support_of_mem_take (canonical : diagram.Canonical)
    (ascending : domain.Pairwise (· < ·)) (within : ∀ tested ∈ diagram.support, tested ∈ domain)
    (above : var ∈ domain.take (place domain diagram.top)) : var ∉ diagram.support := by
  intro member
  have below := canonical.top_le_of_mem_support member
  have usable : diagram.top ≠ terminalVar := by
    cases canonical with
    | constant value => simp [support] at member
    | decision lowAfter => exact ne_terminalVar_of_lt lowAfter
  rw [place_of_ne usable] at above
  obtain ⟨level, bound, found⟩ := List.mem_take_iff_getElem.1 above
  have topLevel := List.idxOf_lt_length_iff.2 (within _ (top_mem_support usable))
  have before := List.pairwise_iff_getElem.1 ascending level _ (by omega) topLevel (by omega)
  rw [List.getElem_idxOf, found] at before
  exact UInt32.not_lt.2 below before

/-- The models over the variables from some level on, in terms of those from the first test
on. -/
theorem Canonical.ncard_models_drop (canonical : diagram.Canonical)
    (ascending : domain.Pairwise (· < ·)) (within : ∀ tested ∈ diagram.support, tested ∈ domain)
    {start : Nat} (above : start ≤ place domain diagram.top) :
    (models (domain.drop start) diagram.eval).ncard =
      (models (domain.drop (place domain diagram.top)) diagram.eval).ncard <<<
        (place domain diagram.top - start) := by
  have bound := place_le_length domain diagram.top
  obtain ⟨gap, reaches⟩ := Nat.exists_eq_add_of_le above
  have split : domain.drop start =
      (domain.drop start).take gap ++ domain.drop (place domain diagram.top) := by
    rw [reaches, ← List.drop_drop, List.take_append_drop]
  have length : ((domain.drop start).take gap).length = gap := by
    rw [List.length_take, List.length_drop]
    omega
  have distinct := nodup_drop ascending start
  rw [split] at distinct
  rw [split, ncard_models_append distinct, length, reaches, Nat.add_sub_cancel_left]
  intro var member value
  funext assignment
  apply Diagram.eval_update_of_notMem_support
  apply canonical.notMem_support_of_mem_take ascending within
  have here : gap = place domain diagram.top - start := by omega
  rw [here, ← List.drop_take] at member
  exact List.mem_of_mem_drop member

/-- The models of a test over the variables from its own on are those of its branches over
the variables after it. -/
theorem Canonical.ncard_models_decision (canonical : (Diagram.decision var low high).Canonical)
    (ascending : domain.Pairwise (· < ·)) (usable : var ≠ terminalVar) (member : var ∈ domain) :
    (models (domain.drop (place domain var)) (Diagram.decision var low high).eval).ncard =
      (models (domain.drop (place domain var + 1)) low.eval).ncard +
        (models (domain.drop (place domain var + 1)) high.eval).ncard := by
  have distinct := nodup_drop ascending (place domain var)
  rw [drop_place usable member, List.nodup_cons] at distinct
  have lowFixed : fixed (Diagram.decision var low high).eval var false = low.eval :=
    funext fun assignment => (canonical.eval_low assignment).symm
  have highFixed : fixed (Diagram.decision var low high).eval var true = high.eval :=
    funext fun assignment => (canonical.eval_high assignment).symm
  rw [drop_place usable member, ncard_models_cons distinct.1, lowFixed, highFixed]

end Diagram

/-! ## Exact counts -/

namespace Diagram

variable {domain : List Var} {diagram low high : Diagram} {var : Var}

/-- The count is exact if all tests belong to the domain; otherwise a test is reported that
does not. -/
def Exact (diagram : Diagram) (domain : List Var) (answer : Except Failure Nat) (count : Nat) :
    Prop :=
  ((∀ tested ∈ diagram.support, tested ∈ domain) ∧ answer = .ok count) ∨
    ∃ tested ∈ diagram.support, tested ∉ domain ∧
      answer = .error (.violation (.outOfDomain tested))

/-- The number of models over all variables below a level, that of a test above. -/
def shareIn (domain : List Var) (here : Nat) (branch : Diagram) : Except Failure Nat := do
  let skipped ← branch.skippedIn domain here
  let count ← branch.countIn domain
  pure (count <<< skipped)

theorem countIn_decision (domain : List Var) (var : Var) (low high : Diagram) :
    (decision var low high).countIn domain = (do
      let here ← levelIn domain var
      let lowShare ← low.shareIn domain here
      let highShare ← high.shareIn domain here
      pure (lowShare + highShare)) := by
  simp only [countIn, shareIn, bind_assoc, pure_bind]

/-- If the count of a branch is exact, so is its share in the count of a test above it. -/
theorem Canonical.exact_shareIn (canonical : diagram.Canonical)
    (ascending : domain.Pairwise (· < ·)) (member : var ∈ domain) (after : var < diagram.top)
    (exact : diagram.Exact domain (diagram.countIn domain)
      (models (domain.drop (place domain diagram.top)) diagram.eval).ncard) :
    diagram.Exact domain (diagram.shareIn domain (place domain var))
      (models (domain.drop (place domain var + 1)) diagram.eval).ncard := by
  by_cases placed : diagram.top = terminalVar ∨ diagram.top ∈ domain
  case pos =>
    have level := levelIn_of_placed placed
    have above := place_lt_place ascending member placed after
    have skipped : diagram.skippedIn domain (place domain var) =
        .ok (place domain diagram.top - place domain var - 1) := by
      simp only [skippedIn, level, Bind.bind, Except.bind, if_pos above]
      rfl
    have share : diagram.shareIn domain (place domain var) = (diagram.countIn domain).map
        (· <<< (place domain diagram.top - place domain var - 1)) := by
      rw [shareIn, skipped]
      cases diagram.countIn domain <;> rfl
    rw [share]
    rcases exact with ⟨within, counted⟩ | ⟨tested, inside, missing, failed⟩
    · refine .inl ⟨within, ?_⟩
      rw [counted, canonical.ncard_models_drop ascending within above, Nat.sub_sub]
      rfl
    · refine .inr ⟨tested, inside, missing, ?_⟩
      rw [failed]
      rfl
  case neg =>
    rw [not_or] at placed
    refine .inr ⟨diagram.top, top_mem_support placed.1, placed.2, ?_⟩
    rw [shareIn, skippedIn, levelIn_of_notMem placed.1 placed.2]
    rfl

/-- Counting a canonical diagram over ascending variables is exact from its first test on.  The
test, its low branch and its high branch are looked at in this order, and the first variable
without a place ends the count. -/
theorem Canonical.exact_countIn (canonical : diagram.Canonical)
    (ascending : domain.Pairwise (· < ·)) :
    diagram.Exact domain (diagram.countIn domain)
      (models (domain.drop (place domain diagram.top)) diagram.eval).ncard := by
  induction canonical with
  | constant value =>
      refine .inl ⟨by simp [support], ?_⟩
      have last : place domain (Diagram.constant value).top = domain.length := if_pos rfl
      have count : (models [] (Diagram.constant value).eval).ncard = if value then 1 else 0 :=
        models_nil_constant value
      rw [last, List.drop_length, count]
      rfl
  | @decision var low high lowAfter highAfter different lowCanonical highCanonical lowIH highIH =>
      have canonical := Canonical.decision lowAfter highAfter different lowCanonical highCanonical
      have usable := ne_terminalVar_of_lt lowAfter
      rw [countIn_decision, top_decision]
      by_cases member : var ∈ domain
      case neg =>
        refine .inr ⟨var, by simp, member, ?_⟩
        rw [levelIn_of_notMem usable member]
        rfl
      rw [levelIn_of_placed (.inr member)]
      rcases lowCanonical.exact_shareIn ascending member lowAfter lowIH with
        ⟨lowWithin, lowShare⟩ | ⟨tested, inside, missing, failed⟩
      case inr =>
        refine .inr ⟨tested, by simp [inside], missing, ?_⟩
        simp only [Bind.bind, Except.bind, failed]
      rcases highCanonical.exact_shareIn ascending member highAfter highIH with
        ⟨highWithin, highShare⟩ | ⟨tested, inside, missing, failed⟩
      case inr =>
        refine .inr ⟨tested, by simp [inside], missing, ?_⟩
        simp only [Bind.bind, Except.bind, lowShare, failed]
      refine .inl ⟨?_, ?_⟩
      · intro tested inside
        rcases mem_support_decision.1 inside with rfl | below | below
        · exact member
        · exact lowWithin tested below
        · exact highWithin tested below
      · rw [canonical.ncard_models_decision ascending usable member]
        simp only [Bind.bind, Except.bind, lowShare, highShare]
        rfl

theorem ascending_toList (domain : Domain) : domain.toList.Pairwise (· < ·) :=
  Std.TreeSet.ordered_toList.imp Std.compare_eq_lt.1

/-- Counting a canonical diagram over a domain is exact. -/
theorem Canonical.exact_countModels (canonical : diagram.Canonical) (domain : Domain) :
    diagram.Exact domain.toList (diagram.countModels domain)
      (models domain.toList diagram.eval).ncard := by
  have ascending := ascending_toList domain
  rcases canonical.exact_countIn ascending with
    ⟨within, counted⟩ | ⟨tested, inside, missing, failed⟩
  · refine .inl ⟨within, ?_⟩
    have level := levelIn_of_placed (top_placed within)
    have all := canonical.ncard_models_drop ascending within (Nat.zero_le _)
    rw [List.drop_zero, Nat.sub_zero] at all
    rw [countModels, counted, level, all]
    rfl
  · refine .inr ⟨tested, inside, missing, ?_⟩
    rw [countModels, failed]
    rfl

end Diagram

/-! ## Models over a domain -/

namespace Domain

variable {domain : Domain} {function : Assignment → Bool}

/-- The values of the domain's variables. -/
def restrict (domain : Domain) (assignment : Assignment) : { var // var ∈ domain } → Bool :=
  fun var => assignment var

/-- The assignment with the given values and no other variable true. -/
def extend (domain : Domain) (chosen : { var // var ∈ domain } → Bool) : Assignment :=
  fun var => if member : var ∈ domain then chosen ⟨var, member⟩ else false

theorem restrict_extend (chosen : { var // var ∈ domain } → Bool) :
    domain.restrict (domain.extend chosen) = chosen :=
  funext fun var => dif_pos var.2

/-- The choices of values for the domain's variables under which a function is true, whatever
the values of other variables. -/
def models (domain : Domain) (function : Assignment → Bool) :
    Set ({ var // var ∈ domain } → Bool) :=
  { chosen | ∀ assignment, domain.restrict assignment = chosen → function assignment = true }

/-- If only variables of the domain matter, a choice of their values is as good as the
assignment under which no other variable is true. -/
theorem ncard_models (determined : ∀ first second : Assignment,
      (∀ var ∈ domain, first var = second var) → function first = function second) :
    (domain.models function).ncard = (DecisionDiagram.models domain.toList function).ncard := by
  have injective : Set.InjOn domain.restrict (DecisionDiagram.models domain.toList function) := by
    intro left leftModel right rightModel same
    funext var
    by_cases member : var ∈ domain
    · exact congrFun same ⟨var, member⟩
    · have outside := mt Std.TreeSet.mem_toList.1 member
      rw [leftModel.2 var outside, rightModel.2 var outside]
  have image : domain.models function =
      domain.restrict '' DecisionDiagram.models domain.toList function := by
    ext chosen
    constructor
    · intro model
      have restricted := restrict_extend chosen
      refine ⟨domain.extend chosen, ⟨model _ restricted, fun var outside => ?_⟩, restricted⟩
      exact dif_neg (mt Std.TreeSet.mem_toList.2 outside)
    · rintro ⟨assignment, ⟨holds, _⟩, rfl⟩ other same
      rw [determined other assignment fun var member => congrFun same ⟨var, member⟩]
      exact holds
  rw [image, injective.ncard_image]

end Domain

/-- Over a domain that has all variables that matter to a known id's function, counting
answers with the number of models.  Over any other domain it reports a variable that matters
and is missing.  It never meets levels out of order. -/
theorem countModels_of_reachable {manager : Manager} (reachable : manager.Reachable Call.isSafe)
    {ref : Ref} (known : manager.contains ref = true) (domain : Domain) :
    let function := manager.table.function ref
    ((∀ var, DependsOn function var → var ∈ domain) →
      manager.countModels ref domain = .ok (domain.models function).ncard) ∧
    ((∃ var, DependsOn function var ∧ var ∉ domain) →
      ∃ var, DependsOn function var ∧ var ∉ domain ∧
        manager.countModels ref domain = .error (.violation (.outOfDomain var))) ∧
    ∀ defect, manager.countModels ref domain ≠ .error (.defect defect) := by
  intro function
  have wellFormed := reachable.wellFormed
  obtain ⟨diagram, represents⟩ :=
    wellFormed.exists_represents (Manager.contains_iff_knows.1 known)
  have canonical := wellFormed.canonical represents
  have same : function = diagram.eval := wellFormed.function_eq represents
  have exact := canonical.exact_countModels domain
  rw [← Manager.countModels_of_represents wellFormed represents] at exact
  rcases exact with ⟨within, counted⟩ | ⟨tested, inside, missing, failed⟩
  · have member : ∀ var, DependsOn function var → var ∈ domain := by
      intro var depends
      rw [same, canonical.dependsOn_iff] at depends
      exact Std.TreeSet.mem_toList.1 (within var depends)
    have count : (domain.models function).ncard = (models domain.toList diagram.eval).ncard := by
      rw [same]
      apply Domain.ncard_models
      intro first second agree
      apply Diagram.eval_congr_of_support
      exact fun var tested => agree var (Std.TreeSet.mem_toList.1 (within var tested))
    refine ⟨fun _ => by rw [counted, count], ?_, by simp [counted]⟩
    rintro ⟨var, depends, missing⟩
    exact absurd (member var depends) missing
  · have depends : DependsOn function tested := by
      rw [same]
      exact canonical.dependsOn_iff.2 inside
    have outside : tested ∉ domain := mt Std.TreeSet.mem_toList.2 missing
    refine ⟨fun all => absurd (all tested depends) outside, fun _ => ?_, fun defect defective => ?_⟩
    · exact ⟨tested, depends, outside, failed⟩
    · rw [failed] at defective
      cases defective

/-- The exclusive disjunction of two variables has four models over them and one variable more,
and none can be counted without the first of them. -/
theorem countModels_of_misled :
    let function := Session.misled.table.function ⟨5⟩
    let domain : Domain := .ofList [terminalVar, 1, 0]
    (∀ var, DependsOn function var → var ∈ domain) ∧ (domain.models function).ncard = 4 ∧
      DependsOn function 0 := by
  intro function domain
  have counted : Session.misled.countModels ⟨5⟩ domain = .ok 4 := by decide +kernel
  have failed : Session.misled.countModels ⟨5⟩ (.ofList [terminalVar, 1]) =
      .error (.violation (.outOfDomain 0)) := by decide +kernel
  have known : Session.misled.contains ⟨5⟩ = true := by decide
  obtain ⟨exact, incomplete, _⟩ := countModels_of_reachable Session.reachable_misled known domain
  have within : ∀ var, DependsOn function var → var ∈ domain := by
    by_contra missing
    push Not at missing
    obtain ⟨_, _, _, reported⟩ := incomplete missing
    rw [counted] at reported
    cases reported
  have number : (domain.models function).ncard = 4 := by
    have same := exact within
    rw [counted] at same
    exact (Except.ok.inj same).symm
  obtain ⟨whole, gaps, _⟩ :=
    countModels_of_reachable Session.reachable_misled known (.ofList [terminalVar, 1])
  rw [failed] at whole gaps
  have matters : DependsOn function 0 := by
    by_cases gap : ∃ var, DependsOn function var ∧ var ∉ (.ofList [terminalVar, 1] : Domain)
    · obtain ⟨_, depends, _, reported⟩ := gaps gap
      cases reported
      exact depends
    · push Not at gap
      cases whole gap
  exact ⟨within, number, matters⟩

end DecisionDiagram
