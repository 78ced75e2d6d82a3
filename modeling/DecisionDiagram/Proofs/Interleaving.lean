import DecisionDiagram.Proofs.Meaning
import DecisionDiagram.Schedule

/-!
# Scripts that take turns

A script of functional calls on its own results has a meaning of its own: what each of its
calls is answered with, and which diagrams it makes.  Whatever the order in which several
scripts take turns on a manager, each of them finds its meaning, and the store comes to hold
what all of them make.  An order can matter only by the room that is left, and that is
decided by the number of diagrams alone.
-/

namespace DecisionDiagram

open Diagram (closure)

/-! ## The meaning of a script -/

/-- What a step of a script means; a step that is left out means nothing. -/
abbrev Verdict := Option (Except Failure Reply)

def Reply.issued : Reply → List Diagram
  | .id diagram => [diagram]
  | .pair low high => [low, high]
  | .told _ => []

def Verdict.issued : Verdict → List Diagram
  | some (.ok reply) => reply.issued
  | _ => []

namespace Operand

/-- The operand is a constant or refers to a result of its own script. -/
def isOwn : Operand → Bool
  | .id ref => ref.isTerminal
  | .issuedBy .. => true

/-- The diagram that an own operand stands for, given what the steps before mean. -/
def denoted (verdicts : List Verdict) : Operand → Option Diagram
  | .id ref => ref.constant?.map .constant
  | .issuedBy step position => do (Verdict.issued (← verdicts[step]?))[position]?

end Operand

/-- What the steps of a script mean, and the diagrams that they make. -/
structure Account where
  verdicts : List Verdict := []
  made : List Diagram := []

noncomputable def Account.extend (account : Account) (call : Call Operand) : Account :=
  match call.resolve (Operand.denoted account.verdicts) with
  | none => ⟨account.verdicts ++ [none], account.made⟩
  | some meant => ⟨account.verdicts ++ [some meant.meaning], account.made ++ meant.made⟩

namespace Script

variable {script first second : List (Call Operand)} {call : Call Operand}

/-- The script makes functional calls on constants and on its own results. -/
def isFunctional (script : List (Call Operand)) : Bool :=
  script.all fun call => call.isFunctional && call.operands.all Operand.isOwn

noncomputable def account (script : List (Call Operand)) : Account :=
  script.foldl Account.extend {}

theorem account_snoc (script : List (Call Operand)) (call : Call Operand) :
    account (script ++ [call]) = (account script).extend call := by
  rw [account, account, List.foldl_append]
  rfl

theorem length_verdicts (script : List (Call Operand)) :
    (account script).verdicts.length = script.length := by
  induction script using List.reverseRecOn with
  | nil => rfl
  | append_singleton script call ih =>
      rw [account_snoc, Account.extend, List.length_append, ← ih]
      split <;> simp

theorem closure_made_subset (first second : List (Call Operand)) :
    closure (account first).made ⊆ closure (account (first ++ second)).made := by
  induction second using List.reverseRecOn with
  | nil => rw [List.append_nil]
  | append_singleton second call ih =>
      rw [← List.append_assoc, account_snoc, Account.extend]
      split
      · exact ih
      · rw [Diagram.closure_append]
        exact ih.trans Set.subset_union_left

noncomputable def made (scripts : List (List (Call Operand))) : List Diagram :=
  scripts.flatMap fun script => (account script).made

end Script

/-! ## Operands -/

section Operands

variable {table later : UniqueTable} {verdict : Verdict} {outcome : Outcome}
variable {verdicts : List Verdict} {outcomes : List Outcome}

theorem Outcome.Fits.issued (fits : outcome.Fits table verdict) :
    verdict.issued = outcome.issued.map table.unfolding := by
  cases fits with
  | answered fits =>
      cases fits with
      | id represents =>
          simp [Verdict.issued, Reply.issued, Outcome.issued, Answer.issued,
            represents.unfolding_eq]
      | pair lowRepresents highRepresents =>
          simp [Verdict.issued, Reply.issued, Outcome.issued, Answer.issued,
            lowRepresents.unfolding_eq, highRepresents.unfolding_eq]
      | told plain => simp [Verdict.issued, Reply.issued, Outcome.issued, plain]
  | failed failure => rfl
  | unresolved => rfl

theorem Outcome.Fits.knows (fits : outcome.Fits table verdict) :
    ∀ ref ∈ outcome.issued, table.Knows ref := by
  intro ref member
  cases fits with
  | answered fits =>
      cases fits with
      | id represents =>
          obtain rfl : ref = _ := by simpa [Outcome.issued, Answer.issued] using member
          exact represents.knows
      | pair lowRepresents highRepresents =>
          simp only [Outcome.issued, Answer.issued, List.mem_cons, List.not_mem_nil,
            or_false] at member
          rcases member with rfl | rfl
          · exact lowRepresents.knows
          · exact highRepresents.knows
      | told plain => simp [Outcome.issued, plain] at member
  | failed failure => cases member
  | unresolved => cases member

theorem Reply.Fits.extend {reply : Reply} {answer : Answer} (fits : reply.Fits table answer)
    (grown : later.Extends table) : reply.Fits later answer := by
  cases fits with
  | id represents => exact .id (represents.extend grown)
  | pair lowRepresents highRepresents =>
      exact .pair (lowRepresents.extend grown) (highRepresents.extend grown)
  | told plain => exact .told plain

theorem Outcome.Fits.extend (fits : outcome.Fits table verdict) (grown : later.Extends table) :
    outcome.Fits later verdict := by
  cases fits with
  | answered fits => exact .answered (fits.extend grown)
  | failed failure => exact .failed failure
  | unresolved => exact .unresolved

/-- The outcomes of some steps are as meant. -/
abbrev Fitting (table : UniqueTable) : List Verdict → List Outcome → Prop :=
  List.Forall₂ fun verdict outcome => outcome.Fits table verdict

/-- An own operand stands for a known id, which unfolds into the diagram meant. -/
theorem Operand.lookup_of_fitting (fitting : Fitting table verdicts outcomes) {operand : Operand}
    (own : operand.isOwn = true) :
    operand.denoted verdicts = (operand.lookup outcomes).map table.unfolding ∧
      ∀ ref, operand.lookup outcomes = some ref → table.Knows ref := by
  cases operand with
  | id ref =>
      have found : ∀ other, some ref = some other → table.Knows other := by
        intro other same
        cases same
        exact .inl own
      rcases Ref.isTerminal_iff.1 own with rfl | rfl
      · exact ⟨(congrArg some (table.unfolding_ofBool false)).symm, found⟩
      · exact ⟨(congrArg some (table.unfolding_ofBool true)).symm, found⟩
  | issuedBy step position =>
      induction fitting generalizing step with
      | nil => simp [denoted, lookup]
      | @cons verdict outcome verdicts outcomes fits rest ih =>
          cases step with
          | zero =>
              constructor
              · change verdict.issued[position]? = outcome.issued[position]?.map table.unfolding
                rw [fits.issued, List.getElem?_map]
              · intro ref found
                exact fits.knows ref (List.mem_of_getElem? found)
          | succ step => exact ih step own

end Operands

/-! ## One turn -/

section Turn

variable {session : Session} {script : List (Call Operand)} {call : Call Operand}
variable {progress : Progress} {done : Nat} {outcomes : List Outcome} {verdicts : List Verdict}

/-- A functional call on own operands is answered as is meant, or the store is too small for
what it makes. -/
theorem Stepper.fits_of_fitting (sound : session.Sound) (functional : call.isFunctional = true)
    (own : ∀ operand ∈ call.operands, operand.isOwn = true) {account : Account}
    (fitting : Fitting session.table account.verdicts outcomes) :
    ∃ outcome later,
      Stepper.ofPerform Call.perform (Operand.lookup outcomes) call session = (outcome, later) ∧
      later.Sound ∧ later.table.Extends session.table ∧
      ∃ verdict made, account.extend call = ⟨account.verdicts ++ [verdict], account.made ++ made⟩ ∧
        (outcome.Fits later.table verdict ∧
            later.table.held = session.table.held ∪ closure made ∨
          outcome = .full session.table.capacity ∧ session.table.Lacks (closure made)) := by
  have denoted : call.resolve (Operand.denoted account.verdicts) =
      (call.resolve (Operand.lookup outcomes)).map (Call.map session.table.unfolding) := by
    rw [← Call.resolve_map]
    exact Call.resolve_congr fun operand member =>
      (Operand.lookup_of_fitting fitting (own operand member)).1
  cases found : call.resolve (Operand.lookup outcomes) with
  | none =>
      rw [found, Option.map_none] at denoted
      refine ⟨.unresolved, session, ?_, sound, .refl _, none, [], ?_, .inl ⟨.unresolved, ?_⟩⟩
      · simp only [Stepper.ofPerform, HasOperands.resolve, found]
      · simp only [Account.extend, denoted, List.append_nil]
      · rw [Diagram.closure_nil, Set.union_empty]
  | some resolved =>
      rw [found, Option.map_some] at denoted
      have known : ∀ ref ∈ resolved.operands, session.table.Knows ref := by
        intro ref member
        obtain ⟨operand, among, looked⟩ := Call.exists_of_mem_operands found ref member
        exact (Operand.lookup_of_fitting fitting (own operand among)).2 ref looked
      have resolvedFunctional := Call.isFunctional_of_resolve found functional
      have honest := Call.isHonest_of_isFunctional resolvedFunctional
      obtain ⟨outcome, later, run, acts⟩ :=
        SessionM.Means.perform resolvedFunctional sound known
      have laterEq : later = resolved.after session := by rw [Call.after, run]
      refine ⟨outcome, later, ?_, ?_, ?_, some _, _, ?_, acts⟩
      · simp only [Stepper.ofPerform, HasOperands.resolve, found]
        exact run
      · rw [laterEq]
        exact Call.sound_after honest sound
      · rw [laterEq]
        exact (Call.after_grows (Call.isSafe_of_isHonest honest) sound.wellFormed).2
      · simp only [Account.extend, denoted]

/-- A script part way through, with so many calls done as is meant. -/
structure Progress.Keeps (progress : Progress) (script : List (Call Operand)) (done : Nat)
    (table : UniqueTable) : Prop where
  remaining : progress.remaining = script.drop done
  fitting : Fitting table (Script.account (script.take done)).verdicts progress.outcomes

theorem Progress.Keeps.extend {later : UniqueTable}
    (keeps : progress.Keeps script done session.table) (grown : later.Extends session.table) :
    progress.Keeps script done later :=
  ⟨keeps.remaining, keeps.fitting.imp fun _ _ fits => fits.extend grown⟩

/-- What a script makes in its first calls. -/
noncomputable def Script.madeBy (script : List (Call Operand)) (done : Nat) : Set Diagram :=
  closure (Script.account (script.take done)).made

/-- The next call of a script is done as is meant, or the store is too small for what it
makes. -/
theorem Progress.Keeps.advance (sound : session.Sound)
    (functional : Script.isFunctional script = true)
    (keeps : progress.Keeps script done session.table) :
    ∃ advanced later added, progress.advance session = (advanced, later) ∧ later.Sound ∧
      later.table.Extends session.table ∧
      Script.madeBy script (done + 1) = Script.madeBy script done ∪ added ∧
      (advanced.Keeps script (done + 1) later.table ∧
          later.table.held = session.table.held ∪ added ∨
        .full session.table.capacity ∈ advanced.outcomes ∧ session.table.Lacks added) := by
  obtain ⟨remaining, fitting⟩ := keeps
  have rest : script.drop (done + 1) = (script.drop done).tail := List.tail_drop.symm
  have next : script.take (done + 1) = script.take done ++ (script.drop done)[0]?.toList := by
    rw [List.take_add_one, List.getElem?_drop, Nat.add_zero]
  cases left : script.drop done with
  | nil =>
      rw [left] at remaining rest next
      rw [List.getElem?_nil, Option.toList_none, List.append_nil] at next
      refine ⟨progress, session, ∅, ?_, sound, .refl _, ?_, .inl ⟨⟨?_, ?_⟩, ?_⟩⟩
      · simp only [Progress.advance, remaining]
      · rw [Script.madeBy, Script.madeBy, next, Set.union_empty]
      · rw [remaining, rest, List.tail_nil]
      · rwa [next]
      · rw [Set.union_empty]
  | cons call others =>
      rw [left] at remaining rest next
      rw [List.getElem?_cons_zero, Option.toList_some] at next
      have member : call ∈ script := List.mem_of_mem_drop (left ▸ List.mem_cons_self)
      have allowed := List.all_eq_true.1 functional call member
      rw [Bool.and_eq_true, List.all_eq_true] at allowed
      obtain ⟨outcome, later, run, laterSound, grown, verdict, made, extended, acts⟩ :=
        Stepper.fits_of_fitting sound allowed.1 allowed.2 fitting
      refine ⟨⟨others, progress.outcomes ++ [outcome]⟩, later, closure made, ?_, laterSound, grown,
        ?_, ?_⟩
      · simp only [Progress.advance, remaining, run]
      · rw [Script.madeBy, Script.madeBy, next, Script.account_snoc, extended,
          Diagram.closure_append]
      · rcases acts with ⟨fits, held⟩ | ⟨full, lacks⟩
        · refine .inl ⟨⟨?_, ?_⟩, held⟩
          · rw [rest, List.tail_cons]
          · rw [next, Script.account_snoc, extended]
            exact List.rel_append (fitting.imp fun _ _ before => before.extend grown)
              (.cons fits .nil)
        · rw [← full]
          exact .inr ⟨List.mem_append_right _ List.mem_cons_self, lacks⟩

end Turn

/-! ## Series of turns -/

section Turns

variable {scripts : List (List (Call Operand))} {script : List (Call Operand)}
variable {start : UniqueTable} {session : Session} {taken : Schedule} {turn : Nat}
variable {progresses : List Progress} {progress : Progress} {added : Set Diagram}

theorem Script.madeBy_subset (script : List (Call Operand)) (done : Nat) :
    madeBy script done ⊆ closure (account script).made := by
  have whole := closure_made_subset (script.take done) (script.drop done)
  rwa [List.take_append_drop] at whole

/-- What the scripts have made in the turns that were taken. -/
noncomputable def Script.madeIn (scripts : List (List (Call Operand))) (taken : Schedule) :
    Set Diagram :=
  { part | ∃ turn script, scripts[turn]? = some script ∧ part ∈ madeBy script (taken.count turn) }

theorem Script.madeIn_subset (scripts : List (List (Call Operand))) (taken : Schedule) :
    madeIn scripts taken ⊆ closure (made scripts) := by
  intro part found
  obtain ⟨turn, script, position, early⟩ := found
  obtain ⟨diagram, member, inside⟩ := madeBy_subset _ _ early
  exact ⟨diagram, List.mem_flatMap.2 ⟨script, List.mem_of_getElem? position, member⟩, inside⟩

theorem count_snoc_of_ne {other : Nat} (different : turn ≠ other) :
    (taken ++ [turn]).count other = taken.count other := by
  rw [List.count_append, List.count_singleton, beq_eq_false_iff_ne.2 different]
  rfl

theorem count_snoc_self : (taken ++ [turn]).count turn = taken.count turn + 1 := by
  rw [List.count_append, List.count_singleton_self]

theorem Script.madeIn_snoc (position : scripts[turn]? = some script)
    (step : madeBy script (taken.count turn + 1) = madeBy script (taken.count turn) ∪ added) :
    madeIn scripts (taken ++ [turn]) = madeIn scripts taken ∪ added := by
  ext part
  constructor
  · intro found
    obtain ⟨other, owner, otherPosition, inside⟩ := found
    by_cases same : turn = other
    · subst same
      rw [position] at otherPosition
      cases otherPosition
      rw [count_snoc_self, step] at inside
      exact inside.imp_left fun before => ⟨turn, script, position, before⟩
    · rw [count_snoc_of_ne same] at inside
      exact .inl ⟨other, owner, otherPosition, inside⟩
  · intro found
    rcases found with ⟨other, owner, otherPosition, inside⟩ | new
    · by_cases same : turn = other
      · subst same
        rw [position] at otherPosition
        cases otherPosition
        exact ⟨turn, script, position, by rw [count_snoc_self, step]; exact .inl inside⟩
      · exact ⟨other, owner, otherPosition, by rwa [count_snoc_of_ne same]⟩
    · exact ⟨turn, script, position, by rw [count_snoc_self, step]; exact .inr new⟩

theorem Script.madeIn_snoc_of_none (nobody : scripts[turn]? = none) :
    madeIn scripts (taken ++ [turn]) = madeIn scripts taken := by
  have elsewhere : ∀ other script, scripts[other]? = some script → turn ≠ other := by
    intro other script position same
    rw [← same, nobody] at position
    cases position
  ext part
  constructor
  · intro found
    obtain ⟨other, owner, position, inside⟩ := found
    rw [count_snoc_of_ne (elsewhere other owner position)] at inside
    exact ⟨other, owner, position, inside⟩
  · intro found
    obtain ⟨other, owner, position, inside⟩ := found
    exact ⟨other, owner, position, by rwa [count_snoc_of_ne (elsewhere other owner position)]⟩

/-- After the turns that were taken every script is as far as they let it come, its calls
were done as is meant, and the store holds what all scripts made. -/
structure Accounted (scripts : List (List (Call Operand))) (start : UniqueTable)
    (taken : Schedule) (progresses : List Progress) (session : Session) : Prop where
  sound : session.Sound
  grown : session.table.Extends start
  length : progresses.length = scripts.length
  keeps : ∀ (turn : Nat) script progress, scripts[turn]? = some script →
    progresses[turn]? = some progress → progress.Keeps script (taken.count turn) session.table
  held : session.table.held = start.held ∪ Script.madeIn scripts taken

/-- A turn of a script that does not exist is left out. -/
theorem Accounted.skip (accounted : Accounted scripts start taken progresses session)
    (nobody : progresses[turn]? = none) :
    Accounted scripts start (taken ++ [turn]) progresses session := by
  have missing : scripts[turn]? = none := by
    rwa [List.getElem?_eq_none_iff, ← accounted.length, ← List.getElem?_eq_none_iff]
  constructor
  case sound => exact accounted.sound
  case grown => exact accounted.grown
  case length => exact accounted.length
  case keeps =>
    intro other script progress position progressPosition
    have different : turn ≠ other := by
      intro same
      rw [← same, missing] at position
      cases position
    rw [count_snoc_of_ne different]
    exact accounted.keeps other script progress position progressPosition
  case held => rw [accounted.held, Script.madeIn_snoc_of_none missing]

/-- In each turn a call is done as is meant, unless the store is too small for what all
scripts make. -/
theorem Accounted.advance (wellFormed : start.WellFormed)
    (accounted : Accounted scripts start taken progresses session)
    (functional : ∀ script ∈ scripts, Script.isFunctional script = true)
    (position : progresses[turn]? = some progress) :
    ∃ advanced later, progress.advance session = (advanced, later) ∧
      (Accounted scripts start (taken ++ [turn]) (progresses.set turn advanced) later ∨
        start.Lacks (closure (Script.made scripts)) ∧
          .full start.capacity ∈ advanced.outcomes) := by
  have within : turn < progresses.length := (List.getElem?_eq_some_iff.1 position).1
  obtain ⟨script, owner⟩ : ∃ script, scripts[turn]? = some script :=
    ⟨_, List.getElem?_eq_getElem (accounted.length ▸ within)⟩
  have member : script ∈ scripts := List.mem_of_getElem? owner
  obtain ⟨advanced, later, added, run, laterSound, grown, step, acts⟩ :=
    (accounted.keeps turn script progress owner position).advance accounted.sound
      (functional script member)
  have worked := Script.madeIn_snoc owner step
  refine ⟨advanced, later, run, ?_⟩
  rcases acts with ⟨keeps, held⟩ | ⟨full, lacks⟩
  · left
    constructor
    case sound => exact laterSound
    case grown => exact grown.trans accounted.grown
    case length => rw [List.length_set, accounted.length]
    case keeps =>
      intro other otherScript otherProgress otherOwner otherPosition
      by_cases same : turn = other
      · subst same
        rw [List.getElem?_set_self within] at otherPosition
        rw [owner] at otherOwner
        cases otherPosition
        cases otherOwner
        rwa [count_snoc_self]
      · rw [List.getElem?_set_ne same] at otherPosition
        rw [count_snoc_of_ne same]
        have kept := accounted.keeps other otherScript otherProgress otherOwner otherPosition
        exact kept.extend grown
    case held => rw [held, accounted.held, worked, Set.union_assoc]
  · right
    rw [accounted.grown.capacity_eq] at full
    have lacking := UniqueTable.lacks_union accounted.grown accounted.held lacks
    rw [← worked] at lacking
    exact ⟨wellFormed.lacks_mono lacking (Script.madeIn_subset scripts _)
      (Diagram.finite_closure _), full⟩

theorem Progress.outcomes_subset_advance (progress : Progress) (session : Session) :
    progress.outcomes ⊆ (progress.advance session).1.outcomes := by
  simp only [Progress.advance]
  cases progress.remaining with
  | nil => exact List.Subset.refl _
  | cons call rest => exact List.subset_append_left _ _

/-- What became of a call is never revised. -/
theorem Schedule.exists_outcome_of_runFrom (schedule : Schedule) {outcome : Outcome}
    (found : ∃ progress ∈ progresses, outcome ∈ progress.outcomes) :
    ∃ progress ∈ (schedule.runFrom progresses session).1, outcome ∈ progress.outcomes := by
  induction schedule generalizing progresses session with
  | nil => exact found
  | cons turn rest ih =>
      simp only [Schedule.runFrom]
      cases position : progresses[turn]? with
      | none => exact ih found
      | some progress =>
          apply ih
          obtain ⟨owner, member, inside⟩ := found
          obtain ⟨place, placed⟩ := List.mem_iff_getElem?.1 member
          by_cases same : turn = place
          · subst same
            rw [position] at placed
            cases placed
            exact ⟨_, List.mem_set (List.getElem?_eq_some_iff.1 position).1 _,
              progress.outcomes_subset_advance session inside⟩
          · rw [← List.getElem?_set_ne same] at placed
            exact ⟨owner, List.mem_of_getElem? placed, inside⟩

/-- Any series of turns does all calls as is meant, unless the store is too small for what
all scripts make; then some call says so. -/
theorem Accounted.runFrom (wellFormed : start.WellFormed)
    (functional : ∀ script ∈ scripts, Script.isFunctional script = true)
    (accounted : Accounted scripts start taken progresses session) (schedule : Schedule) :
    let ended := schedule.runFrom progresses session
    Accounted scripts start (taken ++ schedule) ended.1 ended.2 ∨
      start.Lacks (closure (Script.made scripts)) ∧
        ∃ progress ∈ ended.1, .full start.capacity ∈ progress.outcomes := by
  induction schedule generalizing taken progresses session with
  | nil =>
      rw [List.append_nil]
      exact .inl accounted
  | cons turn rest ih =>
      rw [← List.singleton_append, ← List.append_assoc]
      simp only [List.singleton_append, Schedule.runFrom]
      cases position : progresses[turn]? with
      | none => exact ih (accounted.skip position)
      | some progress =>
          obtain ⟨advanced, later, run, continued | ⟨lacks, full⟩⟩ :=
            accounted.advance wellFormed functional position
          · simp only [run]
            exact ih continued
          · simp only [run]
            refine .inr ⟨lacks, Schedule.exists_outcome_of_runFrom rest ⟨advanced, ?_, full⟩⟩
            exact List.mem_set (List.getElem?_eq_some_iff.1 position).1 advanced

/-- The schedule gives every script as many turns as it has calls. -/
def Schedule.Completes (schedule : Schedule) (scripts : List (List (Call Operand))) : Prop :=
  ∀ (turn : Nat) (script : List (Call Operand)), scripts[turn]? = some script →
    script.length ≤ schedule.count turn

theorem accounted_nil (scripts : List (List (Call Operand))) (sound : session.Sound) :
    Accounted scripts session.table [] (scripts.map fun script => { remaining := script })
      session := by
  constructor
  case sound => exact sound
  case grown => exact .refl _
  case length => rw [List.length_map]
  case keeps =>
    intro turn script progress position progressPosition
    rw [List.getElem?_map, position] at progressPosition
    cases progressPosition
    exact ⟨rfl, .nil⟩
  case held =>
    have nothing : Script.madeIn scripts [] = ∅ := by
      apply Set.eq_empty_of_subset_empty
      intro part found
      obtain ⟨_, script, _, inside⟩ := found
      simp [Script.madeBy, Script.account] at inside
    rw [nothing, Set.union_empty]

theorem Script.madeIn_of_completes (complete : taken.Completes scripts) :
    madeIn scripts taken = closure (made scripts) := by
  apply Set.Subset.antisymm (madeIn_subset scripts taken)
  intro part found
  obtain ⟨diagram, member, inside⟩ := found
  obtain ⟨script, among, member⟩ := List.mem_flatMap.1 member
  obtain ⟨turn, position⟩ := List.mem_iff_getElem?.1 among
  refine ⟨turn, script, position, ?_⟩
  rw [madeBy, List.take_of_length_le (complete turn script position)]
  exact ⟨diagram, member, inside⟩

/-- When all calls are done, all outcomes are as meant. -/
theorem Accounted.fitting (accounted : Accounted scripts start taken progresses session)
    (complete : taken.Completes scripts) :
    List.Forall₂ (fun script progress =>
        Fitting session.table (Script.account script).verdicts progress.outcomes)
      scripts progresses := by
  apply List.forall₂_of_length_eq_of_get accounted.length.symm
  intro turn within withinToo
  have position := List.getElem?_eq_getElem within
  have keeps := accounted.keeps turn _ _ position (List.getElem?_eq_getElem withinToo)
  have fitting := keeps.fitting
  rwa [List.take_of_length_le (complete turn _ position)] at fitting

/-- A complete schedule does every call of every script as is meant, unless the store is too
small for what all scripts make; then some call says so. -/
theorem Schedule.run_cases (sound : session.Sound)
    (functional : ∀ script ∈ scripts, Script.isFunctional script = true) {schedule : Schedule}
    (complete : schedule.Completes scripts) :
    let ended := schedule.run scripts session
    (ended.2.Sound ∧ ended.2.table.Extends session.table ∧
      ended.2.table.held = session.table.held ∪ closure (Script.made scripts) ∧
      List.Forall₂ (fun script => Fitting ended.2.table (Script.account script).verdicts)
        scripts ended.1) ∨
    (session.table.Lacks (closure (Script.made scripts)) ∧
      ∃ outcomes ∈ ended.1, .full session.table.capacity ∈ outcomes) := by
  intro ended
  rcases (accounted_nil scripts sound).runFrom sound.wellFormed functional schedule with
    accounted | ⟨lacks, progress, member, full⟩
  · rw [List.nil_append] at accounted
    refine .inl ⟨accounted.sound, accounted.grown, ?_,
      List.forall₂_map_right_iff.2 (accounted.fitting complete)⟩
    rw [← Script.madeIn_of_completes complete]
    exact accounted.held
  · exact .inr ⟨lacks, progress.outcomes, List.mem_map_of_mem member, full⟩

end Turns

/-! ## Comparing schedules -/

/-- Two answers that issue ids of the same functions, or tell the same. -/
inductive Answer.Agrees (left right : UniqueTable) : Answer → Answer → Prop where
  | ref {first second : Ref} : left.Knows first → right.Knows second →
      left.function first = right.function second →
      Answer.Agrees left right (.ref first) (.ref second)
  | pair {firstLow firstHigh secondLow secondHigh : Ref} :
      left.Knows firstLow → right.Knows secondLow →
      left.function firstLow = right.function secondLow →
      left.Knows firstHigh → right.Knows secondHigh →
      left.function firstHigh = right.function secondHigh →
      Answer.Agrees left right (.pair firstLow firstHigh) (.pair secondLow secondHigh)
  | told {answer : Answer} : answer.issued = [] → Answer.Agrees left right answer answer

/-- Two outcomes of one step that agree: answers that agree, the same failure, or none. -/
inductive Outcome.Agrees (left right : UniqueTable) : Outcome → Outcome → Prop where
  | answered {first second : Answer} : first.Agrees left right second →
      Outcome.Agrees left right (.answered first) (.answered second)
  | failed (failure : Failure) : Outcome.Agrees left right (.failed failure) (.failed failure)
  | unresolved : Outcome.Agrees left right .unresolved .unresolved

section Comparison

variable {left right : UniqueTable}

theorem Reply.Fits.agrees {reply : Reply} {first second : Answer}
    (leftWellFormed : left.WellFormed) (rightWellFormed : right.WellFormed)
    (leftFits : reply.Fits left first) (rightFits : reply.Fits right second) :
    first.Agrees left right second := by
  cases leftFits with
  | id represents =>
      cases rightFits with
      | id representsToo =>
          exact .ref represents.knows representsToo.knows
            (leftWellFormed.function_eq_of_represents rightWellFormed represents representsToo)
  | pair low high =>
      cases rightFits with
      | pair lowToo highToo =>
          exact .pair low.knows lowToo.knows
            (leftWellFormed.function_eq_of_represents rightWellFormed low lowToo)
            high.knows highToo.knows
            (leftWellFormed.function_eq_of_represents rightWellFormed high highToo)
  | told plain =>
      cases rightFits with
      | told => exact .told plain

theorem Outcome.Fits.agrees {verdict : Verdict} {first second : Outcome}
    (leftWellFormed : left.WellFormed) (rightWellFormed : right.WellFormed)
    (leftFits : first.Fits left verdict) (rightFits : second.Fits right verdict) :
    first.Agrees left right second := by
  cases leftFits with
  | answered fits =>
      cases rightFits with
      | answered fitsToo => exact .answered (fits.agrees leftWellFormed rightWellFormed fitsToo)
  | failed failure =>
      cases rightFits with
      | failed => exact .failed failure
  | unresolved =>
      cases rightFits with
      | unresolved => exact .unresolved

/-- Two lists that are related to a third one are related to each other. -/
theorem forall₂_of_forall₂ {α β γ : Type} {first : α → β → Prop} {second : α → γ → Prop}
    {third : β → γ → Prop} (compose : ∀ item one two, first item one → second item two →
      third one two) {items : List α} {ones : List β} {twos : List γ}
    (firsts : List.Forall₂ first items ones) (seconds : List.Forall₂ second items twos) :
    List.Forall₂ third ones twos := by
  induction firsts generalizing twos with
  | nil =>
      cases seconds
      exact .nil
  | cons head _ ih =>
      cases seconds with
      | cons headToo rest => exact .cons (compose _ _ _ head headToo) (ih rest)

theorem exists_of_forall₂ {α β : Type} {related : α → β → Prop} {ones : List α} {twos : List β}
    (all : List.Forall₂ related ones twos) : ∀ two ∈ twos, ∃ one ∈ ones, related one two := by
  intro two member
  induction all with
  | nil => cases member
  | @cons one other ones twos head _ ih =>
      rcases List.mem_cons.1 member with rfl | later
      · exact ⟨one, List.mem_cons_self, head⟩
      · obtain ⟨found, among, agree⟩ := ih later
        exact ⟨found, List.mem_cons_of_mem one among, agree⟩

end Comparison

/-- Whatever the order in which scripts take turns on a new manager: if in one order no call
finds the store full, none does in another order.  In both orders the store ends with the
same size, and call by call the outcomes agree. -/
theorem outcomes_agree_of_schedules {limit : Nat} {budget : Budget} {before after : Journal}
    {manager : Manager} (created : (Manager.create limit budget).run before = .ok manager after)
    {scripts : List (List (Call Operand))}
    (functional : ∀ script ∈ scripts, Script.isFunctional script = true)
    {first second : Schedule} (firstComplete : first.Completes scripts)
    (secondComplete : second.Completes scripts) (firstJournal secondJournal : Journal) :
    let left := first.run scripts { manager with journal := firstJournal }
    let right := second.run scripts { manager with journal := secondJournal }
    (∀ outcomes ∈ left.1, ∀ capacity, .full capacity ∉ outcomes) →
      (∀ outcomes ∈ right.1, ∀ capacity, .full capacity ∉ outcomes) ∧
      right.2.table.size = left.2.table.size ∧
      List.Forall₂ (fun script outcomes => outcomes.length = script.length) scripts left.1 ∧
      List.Forall₂ (List.Forall₂ (Outcome.Agrees left.2.table right.2.table)) left.1 right.1 := by
  intro left right roomy
  have reachable : manager.Reachable Call.isHonest := .created created
  have sound := reachable.sound
  obtain ⟨leftSound, leftGrown, leftHeld, leftFits⟩ :=
    (@Schedule.run_cases scripts { manager with journal := firstJournal } sound functional first
      firstComplete).resolve_right fun ⟨_, outcomes, member, full⟩ =>
        roomy outcomes member _ full
  have room : ¬manager.table.Lacks (closure (Script.made scripts)) := by
    intro lacks
    have bound := leftSound.wellFormed.searchable.size_le
    rw [leftGrown.capacity_eq] at bound
    rw [UniqueTable.Lacks, ← leftHeld, leftSound.wellFormed.ncard_held] at lacks
    exact Nat.not_lt.2 (Nat.add_le_add_right bound 2) lacks
  obtain ⟨rightSound, _, rightHeld, rightFits⟩ :=
    (@Schedule.run_cases scripts { manager with journal := secondJournal } sound functional second
      secondComplete).resolve_right fun lacking => room lacking.1
  have agree : List.Forall₂ (List.Forall₂ (Outcome.Agrees left.2.table right.2.table))
      left.1 right.1 := by
    refine forall₂_of_forall₂ (fun script ones twos leftFitting rightFitting => ?_)
      leftFits rightFits
    exact forall₂_of_forall₂ (fun verdict one two oneFits twoFits =>
      oneFits.agrees leftSound.wellFormed rightSound.wellFormed twoFits) leftFitting rightFitting
  refine ⟨?roomy, ?size, ?lengths, agree⟩
  case roomy =>
    intro outcomes member capacity full
    obtain ⟨others, among, same⟩ := exists_of_forall₂ agree outcomes member
    obtain ⟨other, inside, agrees⟩ := exists_of_forall₂ same _ full
    cases agrees
    exact roomy others among capacity inside
  case size =>
    have same : right.2.table.held.ncard = left.2.table.held.ncard := by rw [rightHeld, leftHeld]
    rw [rightSound.wellFormed.ncard_held, leftSound.wellFormed.ncard_held] at same
    exact Nat.add_right_cancel same
  case lengths =>
    refine leftFits.imp fun script outcomes fitting => ?_
    rw [← fitting.length_eq, Script.length_verdicts]

/-- Two scripts that work on one variable each; a call of the second one fails. -/
def Script.rivals : List (List (Call Operand)) :=
  [[.makeVar 1, .negate (.issuedBy 0 0)],
    [.makeVar 2, .apply .or (.issuedBy 0 0) (.id .falseRef), .lowOf (.id .trueRef)]]

/-- All ids depend on the order, but not what they stand for. -/
theorem outcomes_agree_of_rivals :
    let first : Schedule := [0, 0, 1, 1, 1]
    let second : Schedule := [1, 0, 1, 0, 1]
    let left := first.run Script.rivals Session.fresh
    let right := second.run Script.rivals Session.fresh
    (∀ script ∈ Script.rivals, Script.isFunctional script = true) ∧
      first.Completes Script.rivals ∧ second.Completes Script.rivals ∧
      (∀ outcomes ∈ left.1, ∀ capacity, .full capacity ∉ outcomes) ∧
      left.1.map (·.map Outcome.issued) = [[[⟨3⟩], [⟨4⟩]], [[⟨5⟩], [⟨5⟩], []]] ∧
      right.1.map (·.map Outcome.issued) = [[[⟨4⟩], [⟨5⟩]], [[⟨3⟩], [⟨3⟩], []]] ∧
      right.2.table.size = left.2.table.size ∧
      left.2.table.function ⟨4⟩ = right.2.table.function ⟨5⟩ := by
  intro first second left right
  have created : (Manager.create 64 ⟨64, 24⟩).run {} = .ok Session.fresh.toManager {} := rfl
  have functional : ∀ script ∈ Script.rivals, Script.isFunctional script = true := by decide
  have complete : ∀ schedule : Schedule, 2 ≤ schedule.count 0 → 3 ≤ schedule.count 1 →
      schedule.Completes Script.rivals := by
    intro schedule enough enoughToo turn script position
    match turn with
    | 0 =>
        cases position
        exact enough
    | 1 =>
        cases position
        exact enoughToo
    | turn + 2 => cases position
  have firstComplete : first.Completes Script.rivals := complete first (by decide) (by decide)
  have secondComplete : second.Completes Script.rivals := complete second (by decide) (by decide)
  have leftOutcomes : (Schedule.run [0, 0, 1, 1, 1] Script.rivals Session.fresh).1 =
      [[.answered (.ref ⟨3⟩), .answered (.ref ⟨4⟩)],
        [.answered (.ref ⟨5⟩), .answered (.ref ⟨5⟩),
          .failed (.violation (.unknownNode .trueRef))]] := by
    with_unfolding_all rfl
  have rightOutcomes : (Schedule.run [1, 0, 1, 0, 1] Script.rivals Session.fresh).1 =
      [[.answered (.ref ⟨4⟩), .answered (.ref ⟨5⟩)],
        [.answered (.ref ⟨3⟩), .answered (.ref ⟨3⟩),
          .failed (.violation (.unknownNode .trueRef))]] := by
    with_unfolding_all rfl
  have roomy : ∀ outcomes ∈ left.1, ∀ capacity, .full capacity ∉ outcomes := by
    simp [left, first, leftOutcomes, Outcome.full, Failure.violation]
  obtain ⟨_, size, _, agree⟩ :=
    outcomes_agree_of_schedules created functional firstComplete secondComplete {} {} roomy
  refine ⟨functional, firstComplete, secondComplete, roomy, ?_, ?_, size, ?_⟩
  · simp [left, first, leftOutcomes, Outcome.issued, Answer.issued]
  · simp [right, second, rightOutcomes, Outcome.issued, Answer.issued]
  · change List.Forall₂ _ (Schedule.run [0, 0, 1, 1, 1] Script.rivals Session.fresh).1
      (Schedule.run [1, 0, 1, 0, 1] Script.rivals Session.fresh).1 at agree
    rw [leftOutcomes, rightOutcomes, List.forall₂_cons, List.forall₂_cons, List.forall₂_cons]
      at agree
    obtain ⟨⟨_, negations, _⟩, _⟩ := agree
    cases negations with
    | answered answers =>
        cases answers with
        | ref _ _ same => exact same

end DecisionDiagram
