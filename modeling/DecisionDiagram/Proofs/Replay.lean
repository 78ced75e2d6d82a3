import DecisionDiagram.Proofs.Memory
import DecisionDiagram.Proofs.Unknown

/-!
# Replays

An operation that succeeded once succeeds ever after, with the same answer and without
another slot.  It need not be remembered for that: every node that it asks for on the way is
in use since the first time, so it is found even in a full store.
-/

namespace DecisionDiagram

open UniqueTable (intern)

/-! ## Making a node again -/

namespace UniqueTable

variable {table middle later : UniqueTable} {ref low high : Ref} {var : Var}

/-- A node that was made once is found in every store that grew from there. -/
theorem WellFormed.run_make_again (wellFormed : table.WellFormed)
    (laterWellFormed : later.WellFormed) (grown : later.Extends middle)
    (run : (UniqueTable.make var low high).run table = .ok ref middle) :
    (UniqueTable.make var low high).run later = .ok ref later := by
  rw [run_make] at run
  cases objection : table.objection? var low high with
  | some violation =>
      rw [objection] at run
      cases run
  | none =>
      rw [objection] at run
      rcases known_or_proper_of_objection?_eq_none objection with ⟨rfl, known⟩ | ⟨different, proper⟩
      · simp only [merge, ↓reduceIte] at run
        cases run
        have usable : var ≠ terminalVar := by
          rintro rfl
          simp [objection?] at objection
        exact run_make_self usable (grown.knows known)
      · simp only [merge, different, ↓reduceIte] at run
        rcases wellFormed.run_store proper with ⟨stored, last, stores, _, _, content⟩ | full
        · rw [stores] at run
          cases run
          exact laterWellFormed.run_make_of_node? (grown.node? content)
        · rw [full] at run
          cases run

end UniqueTable

namespace SessionM

variable {α β γ : Type} {action : SessionM α} {depth : Nat} {op : BinaryOp}
variable {session later : Session} {answer : α} {ref : Ref} {diagram : Diagram} {key : Key}

/-! ## Computations that can be repeated -/

/-- Once the action succeeded, it succeeds on every sound session whose store grew from what
it left behind, with the same answer and without a change to that store. -/
def Repeats (action : SessionM α) : Prop :=
  ∀ ⦃session middle : Session⦄ ⦃answer : α⦄, session.Sound →
    action.run session = .ok answer middle →
    ∀ later : Session, later.Sound → later.table.Extends middle.table →
      storeView (action.run later) = .ok answer later.table

/-- A result without its journal and memory, taken apart. -/
theorem exists_of_storeView_eq_ok {table : UniqueTable} {result : EStateM.Result Failure Session α}
    (view : storeView result = .ok answer table) :
    ∃ later : Session, result = .ok answer later ∧ later.table = table := by
  cases result with
  | ok given later =>
      cases view
      exact ⟨later, rfl, rfl⟩
  | error failure later => cases view

theorem Transparent.sound_of_run (transparent : Transparent action) (sound : session.Sound)
    (run : action.run session = .ok answer later) : later.Sound := by
  obtain ⟨reference, simulates⟩ := transparent session.table
  have kept := (simulates session rfl sound).sound
  rwa [run] at kept

theorem Grows.extends_of_run (grows : Grows action) (sound : session.Sound)
    (run : action.run session = .ok answer later) : later.table.Extends session.table := by
  have grown := ((grows session).grown sound.wellFormed).2
  rwa [run] at grown

theorem Repeats.pure (answer : α) : Repeats (Pure.pure answer) := by
  intro session middle given sound run later laterSound grown
  cases run
  rfl

theorem Repeats.bind {next : α → SessionM β} (first : Repeats action)
    (transparent : Transparent action) (second : ∀ answer, Repeats (next answer))
    (grows : ∀ answer, Grows (next answer)) : Repeats (action >>= next) := by
  intro session last result sound run later laterSound grown
  obtain ⟨answer, middle, begun, ended⟩ := exists_of_run_bind_eq_ok run
  have middleSound := transparent.sound_of_run sound begun
  have grewThen := (grows answer).extends_of_run middleSound ended
  obtain ⟨resumed, again, sameStore⟩ := exists_of_storeView_eq_ok
    (first sound begun later laterSound (grown.trans grewThen))
  have resumedSound := transparent.sound_of_run laterSound again
  rw [← sameStore] at grown ⊢
  rw [run_bind_of_ok again]
  exact second answer middleSound ended resumed resumedSound grown

theorem Repeats.record {event : Event} (rest : Repeats action) : Repeats (do
    SessionM.record event
    action) := by
  intro session middle answer sound run later laterSound grown
  rw [run_bind_of_ok (run_record event session)] at run
  rw [run_bind_of_ok (run_record event later)]
  exact @rest { session with journal := session.journal.record event } middle answer sound run
    { later with journal := later.journal.record event } laterSound grown

theorem Repeats.foldlM {step : β → γ → SessionM β} (each : ∀ state item, Repeats (step state item))
    (transparent : ∀ state item, Transparent (step state item))
    (grows : ∀ state item, Grows (step state item)) (items : List γ) (start : β) :
    Repeats (items.foldlM step start) := by
  induction items generalizing start with
  | nil => exact .pure start
  | cons item rest ih =>
      rw [List.foldlM_cons]
      exact .bind (each start item) (transparent start item) (fun state => ih state)
        fun state => .foldlM grows rest state

theorem Repeats.make (var : Var) (low high : Ref) :
    Repeats (DecisionDiagram.make var low high) := by
  intro session middle ref sound run later laterSound grown
  have first := (Simulates.make var low high sound).view
  rw [run] at first
  rw [(Simulates.make var low high laterSound).view]
  exact sound.wellFormed.run_make_again laterSound.wellFormed grown first.symm

/-! ## Operators -/

/-- What acts like the storing of one diagram both times finds it again. -/
theorem Simulates.view_again {action : SessionM Ref} {middle : Session}
    (canonical : diagram.Canonical) (sound : session.Sound)
    (simulates : Simulates action (intern diagram) session)
    (run : action.run session = .ok ref middle) (laterSound : later.Sound)
    (grown : later.table.Extends middle.table)
    (laterSimulates : Simulates action (intern diagram) later) :
    storeView (action.run later) = .ok ref later.table := by
  have stored := simulates.view
  rw [run] at stored
  have interned := sound.wellFormed.interned_of_run canonical stored.symm
  rw [laterSimulates.view]
  exact laterSound.wellFormed.run_intern_of_represents (interned.represents.extend grown)

theorem Refuses.not_ok {middle : Session} (refuses : Refuses action key session)
    (run : action.run session = .ok answer middle) : False := by
  obtain ⟨_, _, _, _, failed⟩ := refuses
  rw [run] at failed
  cases failed

theorem Repeats.negateWithin (enough : nestingLimit ≤ depth + 1) (operand : Ref) :
    Repeats (DecisionDiagram.negateWithin depth operand) := by
  intro session middle ref sound run later laterSound grown
  by_cases known : session.table.Knows operand
  case pos =>
    have admits : session.table.Admits (.negation operand) :=
      ⟨known, session.table.knows_ofBool false, session.table.knows_ofBool false⟩
    obtain ⟨diagram, denotes⟩ := sound.wellFormed.exists_denotes admits
    have grewThen := (Grows.negateWithin depth operand).extends_of_run sound run
    have laterDenotes := sound.wellFormed.denotes_extend laterSound.wellFormed
      (grown.trans grewThen) denotes
    exact Simulates.view_again denotes.canonical sound
      (.negateWithin sound denotes (known.fits enough)) run laterSound grown
      (.negateWithin laterSound laterDenotes (laterDenotes.admits.first.fits enough))
  case neg =>
    obtain ⟨depth, rfl⟩ : ∃ rest, depth = rest + 1 :=
      ⟨depth - 1, by unfold nestingLimit at enough; omega⟩
    exact ((Refuses.negateWithin sound known).not_ok run).elim

theorem Repeats.follow (enough : nestingLimit ≤ depth + 1) (shortcut : Shortcut) :
    Repeats (SessionM.follow depth shortcut) := by
  cases shortcut with
  | is result => exact .pure result
  | negationOf operand => exact .negateWithin enough operand

theorem Repeats.applyWithin (enough : nestingLimit ≤ depth) (op : BinaryOp) (left right : Ref) :
    Repeats (DecisionDiagram.applyWithin depth op left right) := by
  intro session middle ref sound run later laterSound grown
  by_cases admits : session.table.Admits (.binary op left right)
  case pos =>
    obtain ⟨diagram, denotes⟩ := sound.wellFormed.exists_denotes admits
    have grewThen := (Grows.applyWithin depth op left right).extends_of_run sound run
    have laterDenotes := sound.wellFormed.denotes_extend laterSound.wellFormed
      (grown.trans grewThen) denotes
    have laterAdmits := laterDenotes.admits
    exact Simulates.view_again denotes.canonical sound
      (.applyWithin sound denotes (admits.first.fits enough) (admits.second.fits enough)) run
      laterSound grown
      (.applyWithin laterSound laterDenotes (laterAdmits.first.fits enough)
        (laterAdmits.second.fits enough))
  case neg =>
    obtain ⟨depth, rfl⟩ : ∃ rest, depth = rest + 1 :=
      ⟨depth - 1, by unfold nestingLimit at enough; omega⟩
    cases found : op.shortcut? left right with
    | some shortcut =>
        have followed := Repeats.follow enough shortcut
        simp only [DecisionDiagram.applyWithin, found] at run ⊢
        cases shortcut <;> exact followed sound run later laterSound grown
    | none =>
        obtain ⟨_, _, _, refuses⟩ := Refuses.applyWithin sound found admits
        exact (refuses.not_ok run).elim

theorem Repeats.chooseWithin (enough : nestingLimit ≤ depth) (condition yes no : Ref) :
    Repeats (DecisionDiagram.chooseWithin depth condition yes no) := by
  intro session middle ref sound run later laterSound grown
  by_cases admits : session.table.Admits (.conditional condition yes no)
  case pos =>
    obtain ⟨diagram, denotes⟩ := sound.wellFormed.exists_denotes admits
    have grewThen := (Grows.chooseWithin depth condition yes no).extends_of_run sound run
    have laterDenotes := sound.wellFormed.denotes_extend laterSound.wellFormed
      (grown.trans grewThen) denotes
    have laterAdmits := laterDenotes.admits
    exact Simulates.view_again denotes.canonical sound
      (.chooseWithin sound denotes (admits.first.fits enough) (admits.second.fits enough)
        (admits.third.fits enough)) run laterSound grown
      (.chooseWithin laterSound laterDenotes (laterAdmits.first.fits enough)
        (laterAdmits.second.fits enough) (laterAdmits.third.fits enough))
  case neg =>
    obtain ⟨depth, rfl⟩ : ∃ rest, depth = rest + 1 :=
      ⟨depth - 1, by unfold nestingLimit at enough; omega⟩
    cases found : chooseShortcut? condition yes no with
    | some shortcut =>
        have followed : Repeats (do
            SessionM.record (.choose condition yes no)
            SessionM.follow depth shortcut) := .record (.follow enough shortcut)
        simp only [DecisionDiagram.chooseWithin, found] at run ⊢
        cases shortcut <;> exact followed sound run later laterSound grown
    | none => exact ((Refuses.chooseWithin sound found admits).not_ok run).elim

theorem Repeats.apply (op : BinaryOp) (left right : Ref) :
    Repeats (DecisionDiagram.apply op left right) :=
  .record (.applyWithin (Nat.le_refl _) op left right)

end SessionM

/-! ## Calls -/

namespace Call

variable {call : Call Ref} {session : Session} {answer : Answer}

/-- The call asks for the id of a function that is made of others. -/
def builds {ρ : Type} : Call ρ → Bool
  | .make .. => true
  | .makeVar _ => true
  | .makeNegatedVar _ => true
  | .negate _ => true
  | .apply .. => true
  | .choose .. => true
  | .conjoin _ => true
  | .disjoin _ => true
  | _ => false

theorem isHonest_of_builds (builds : call.builds = true) : call.isHonest = true := by
  cases call with
  | table call => simp [Call.builds] at builds
  | memo call => simp [Call.builds] at builds
  | _ => rfl

theorem run_of_outcome (answered : call.outcome session = .answered answer) :
    call.perform.run session = .ok answer (call.after session) := by
  simp only [outcome, after, Stepper.run] at answered ⊢
  cases run : call.perform.run session with
  | ok given later =>
      rw [run] at answered
      cases answered
      rfl
  | error failure later =>
      rw [run] at answered
      cases answered

end Call

theorem SessionM.Repeats.perform {call : Call Ref} (builds : call.builds = true) :
    Repeats call.perform := by
  cases call with
  | make | makeVar | makeNegatedVar =>
      exact .bind (.make _ _ _) (.make _ _ _) (fun _ => .pure _) fun _ => .pure _
  | negate operand =>
      exact .bind (.negateWithin (Nat.le_succ _) operand) (.negateWithin (Nat.le_succ _) operand)
        (fun _ => .pure _) fun _ => .pure _
  | apply op left right =>
      exact .bind (.apply op left right) (.apply op left right) (fun _ => .pure _) fun _ => .pure _
  | choose condition yes no =>
      exact .bind (.chooseWithin (Nat.le_refl _) condition yes no)
        (.chooseWithin (Nat.le_refl _) condition yes no) (fun _ => .pure _) fun _ => .pure _
  | conjoin operands | disjoin operands =>
      refine .bind (.record ?_) (fun table => .record ?_) (fun _ => .pure _) fun _ => .pure _
      · exact .foldlM (.apply _) (.apply _) (.apply _) operands _
      · exact Transparent.foldlM (.apply _) operands _ table
  | _ => simp [Call.builds] at builds

/-- Honest calls keep a session sound, and its store only grows. -/
theorem Session.sound_run {session : Session} (sound : session.Sound) {calls : List (Call Ref)}
    (honest : ∀ call ∈ calls, call.isHonest = true) :
    (session.run calls).Sound ∧ (session.run calls).table.Extends session.table := by
  induction calls generalizing session with
  | nil => exact ⟨sound, .refl _⟩
  | cons call rest ih =>
      have callHonest := honest call List.mem_cons_self
      have grown := (Call.after_grows (Call.isSafe_of_isHonest callHonest) sound.wellFormed).2
      have rest := ih (Call.sound_after callHonest sound) fun later member =>
        honest later (List.mem_cons_of_mem call member)
      exact ⟨rest.1, rest.2.trans grown⟩

/-- If a call that builds a function was answered with an id, then after whatever honest
calls, answered or failed, it is answered with that id again, and changes no slot. -/
theorem replay_of_reachable {session : Session}
    (reachable : session.toManager.Reachable Call.isHonest) {call : Call Ref}
    (builds : call.builds = true) {ref : Ref}
    (built : call.outcome session = .answered (.ref ref)) {calls : List (Call Ref)}
    (honest : ∀ other ∈ calls, other.isHonest = true) :
    let later := (call.after session).run calls
    call.outcome later = .answered (.ref ref) ∧ (call.after later).table = later.table := by
  intro later
  have sound : session.Sound := reachable.sound
  have afterSound := Call.sound_after (Call.isHonest_of_builds builds) sound
  obtain ⟨laterSound, grown⟩ : later.Sound ∧ later.table.Extends (call.after session).table :=
    Session.sound_run afterSound honest
  have again := SessionM.Repeats.perform builds sound (Call.run_of_outcome built) later laterSound
    grown
  rw [Call.outcome_eq, Call.table_after, again]
  exact ⟨rfl, rfl⟩

/-- A session with two variables and their disjunction, and room for one node more. -/
def Session.crowded : Session :=
  fresh.run [.makeVar 1, .makeVar 0, .apply .or ⟨3⟩ ⟨2⟩]

theorem Session.reachable_crowded : crowded.toManager.Reachable Call.isHonest :=
  (reachable_fresh Call.isHonest).run _ (by decide)

/-- The conjunction that took the last slot is found again when everything is forgotten and
nothing new can be made. -/
theorem replay_of_crowded :
    let call : Call Ref := .apply .and ⟨3⟩ ⟨2⟩
    let later := (call.after Session.crowded).run
      [.apply .equiv ⟨3⟩ ⟨2⟩, .memo .clear, .makeVar 7]
    Session.crowded.toManager.Reachable Call.isHonest ∧
      call.outcome Session.crowded = .answered (.ref ⟨5⟩) ∧
      call.outcome later = .answered (.ref ⟨5⟩) ∧ (call.after later).table = later.table := by
  have reachable : Session.crowded.toManager.Reachable Call.isHonest :=
    (Session.reachable_fresh Call.isHonest).run _ (by decide)
  have built : (Call.apply .and ⟨3⟩ ⟨2⟩).outcome Session.crowded = .answered (.ref ⟨5⟩) := by
    with_unfolding_all rfl
  exact ⟨reachable, built, replay_of_reachable reachable rfl built (by decide)⟩

end DecisionDiagram
