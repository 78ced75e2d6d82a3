import DecisionDiagram.Proofs.Soundness

/-!
# Acting like a computation on the store

A computation on a sound session simulates a computation on its store when both answer
alike and leave the same store behind, and the session stays sound.  The store's half
knows nothing of remembered results, so neither can the answers.
-/

namespace DecisionDiagram

/-- A result with everything but the store left out of the state. -/
def storeView {α : Type} : EStateM.Result Failure Session α → EStateM.Result Failure UniqueTable α
  | .ok answer session => .ok answer session.table
  | .error failure session => .error failure session.table

namespace SessionM

open UniqueTable (intern merge)

variable {α β : Type} {session later : Session} {action : SessionM α} {next : α → SessionM β}
variable {reference other : StoreM α} {ref : Ref} {diagram : Diagram} {var : Var}

/-- The action does to the store what the reference does, and keeps the session sound. -/
structure Simulates (action : SessionM α) (reference : StoreM α) (session : Session) : Prop where
  view : storeView (action.run session) = reference.run session.table
  sound : (finalState (action.run session)).Sound

/-! ## Rules -/

theorem Simulates.congr (simulates : Simulates action reference session)
    (same : reference.run session.table = other.run session.table) :
    Simulates action other session :=
  ⟨simulates.view.trans same, simulates.sound⟩

theorem Simulates.pure (answer : α) (sound : session.Sound) :
    Simulates (Pure.pure answer) (Pure.pure answer) session :=
  ⟨rfl, sound⟩

theorem Simulates.bind {continuation : α → StoreM β} (first : Simulates action reference session)
    (second : ∀ answer later, reference.run session.table = .ok answer later.table →
      later.Sound → Simulates (next answer) (continuation answer) later) :
    Simulates (action >>= next) (reference >>= continuation) session := by
  obtain ⟨view, sound⟩ := first
  cases run : action.run session with
  | ok answer later =>
      rw [run] at view sound
      have ended := second answer later view.symm sound
      constructor
      · rw [run_bind_of_ok run, run_bind_of_ok view.symm, ended.view]
      · rw [run_bind_of_ok run]
        exact ended.sound
  | error failure later =>
      rw [run] at view sound
      constructor
      · rw [run_bind_of_error run, run_bind_of_error view.symm]
        rfl
      · rw [run_bind_of_error run]
        exact sound

/-- A step that does not touch the store has no counterpart in the reference. -/
theorem Simulates.after {reference : StoreM β} {answer : α}
    (run : action.run session = .ok answer later) (same : later.table = session.table)
    (rest : Simulates (next answer) reference later) :
    Simulates (action >>= next) reference session := by
  constructor
  · rw [run_bind_of_ok run, rest.view, same]
  · rw [run_bind_of_ok run]
    exact rest.sound

theorem Simulates.failed {failure : Failure} (run : action.run session = .error failure later)
    (same : later.table = session.table) (sound : later.Sound) :
    Simulates (action >>= next) (MonadExcept.throw failure) session := by
  constructor
  · rw [run_bind_of_error run]
    simp only [storeView, same]
    rfl
  · rw [run_bind_of_error run]
    exact sound

/-- A lookup either recalls a right result or nothing. -/
theorem Simulates.lookUp {key : Key} {next : Option Ref → SessionM β} {reference : StoreM β}
    (sound : session.Sound)
    (hit : ∀ result, session.table.Justifies key result →
      ∀ memo journal, Manager.Sound { session.toManager with memo := memo } →
        Simulates (next (some result)) reference { session with memo := memo, journal := journal })
    (miss : ∀ memo journal, Manager.Sound { session.toManager with memo := memo } →
      Simulates (next none) reference { session with memo := memo, journal := journal }) :
    Simulates (SessionM.lookUp key >>= next) reference session := by
  obtain ⟨journal, run⟩ := run_lookUp key session
  have counted := sound.count key
  apply Simulates.after run rfl
  cases found : session.memo.find? key with
  | some result => exact hit result (sound.justifies found) _ journal counted
  | none => exact miss _ journal counted

theorem Simulates.make (var : Var) (low high : Ref) (sound : session.Sound) :
    Simulates (DecisionDiagram.make var low high) (UniqueTable.make var low high) session := by
  obtain ⟨journal, run⟩ := run_make var low high session
  obtain ⟨wellFormed, grown⟩ := sound.wellFormed.make var low high
  rw [run_onTable] at run
  constructor
  · rw [run]
    cases result : (UniqueTable.make var low high).run session.table <;> rfl
  · rw [run]
    cases result : (UniqueTable.make var low high).run session.table <;>
      rw [result] at wellFormed grown <;> exact sound.grow wellFormed grown

/-- An id at hand need not be stored again. -/
theorem Simulates.of_represents (sound : session.Sound)
    (represents : session.table.Represents ref diagram) :
    Simulates (Pure.pure ref) (intern diagram) session :=
  (Simulates.pure ref sound).congr
    (sound.wellFormed.run_intern_of_represents represents).symm

/-! ## Expansion -/

/-- Making a node of branches that descend is merging them. -/
theorem Simulates.make_of_follows {low high : Ref} (sound : session.Sound)
    (lowFollows : session.table.Follows low var) (highFollows : session.table.Follows high var) :
    Simulates (DecisionDiagram.make var low high) (merge var low high) session := by
  apply (Simulates.make var low high sound).congr
  rw [UniqueTable.run_make, UniqueTable.objection?_eq_none_of_follows lowFollows highFollows]

/-- Storing both cofactors, making a node of them and finishing without change to the
store amounts to storing the diagram. -/
theorem Simulates.expand {lowAction highAction : SessionM Ref} {finish : Ref → SessionM Ref}
    (sound : session.Sound) (canonical : diagram.Canonical) (above : var ≤ diagram.top)
    (usable : var < terminalVar)
    (lowSimulates : Simulates lowAction (intern (diagram.cofactor var false)) session)
    (highSimulates : ∀ later : Session, later.Sound → later.table.Extends session.table →
      Simulates highAction (intern (diagram.cofactor var true)) later)
    (finished : ∀ (ref : Ref) (later : Session), later.Sound →
      later.table.Extends session.table → later.table.Represents ref diagram →
      Simulates (finish ref) (Pure.pure ref) later) :
    Simulates (do
      let low ← lowAction
      let high ← highAction
      let result ← DecisionDiagram.make var low high
      finish result) (intern diagram) session := by
  have stored := sound.wellFormed.run_intern_cofactors canonical above usable
  have lowAfter := canonical.lt_top_cofactor usable above false
  have highAfter := canonical.lt_top_cofactor usable above true
  have reference : (intern diagram).run session.table =
      (intern (diagram.cofactor var false) >>= fun low =>
        intern (diagram.cofactor var true) >>= fun high =>
          merge var low high >>= Pure.pure).run session.table := by
    simp only [bind_pure]
    exact stored
  refine Simulates.congr (.bind lowSimulates fun low middle lowRun middleSound => ?_)
    reference.symm
  have lowInterned := sound.wellFormed.interned_of_run (canonical.cofactor var false) lowRun
  refine .bind (highSimulates middle middleSound lowInterned.grown)
    fun high last highRun lastSound => ?_
  have highInterned := middleSound.wellFormed.interned_of_run (canonical.cofactor var true) highRun
  have lowRepresents := lowInterned.represents.extend highInterned.grown
  refine .bind (.make_of_follows lastSound ⟨_, lowRepresents.var?, lowAfter⟩
    ⟨_, highInterned.represents.var?, highAfter⟩) fun ref later mergeRun laterSound => ?_
  rw [run_bind_of_ok lowRun, run_bind_of_ok highRun, mergeRun] at stored
  have interned := sound.wellFormed.interned_of_run canonical stored
  exact finished ref later laterSound interned.grown interned.represents

end SessionM
end DecisionDiagram
