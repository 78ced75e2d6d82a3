import DecisionDiagram.Proofs.Descent
import DecisionDiagram.Proofs.Recall

/-!
# Every subproblem once

An operator that looks a subproblem up in vain works it out and remembers its result.  While it
is worked out, only subproblems on later variables are looked up, so it is not asked for again;
and afterwards its result is found, as long as no other subproblem takes its entry.  So nothing
is looked up in vain twice, however many paths lead to it.
-/

namespace DecisionDiagram

/-! ## Lookups in vain -/

def Event.missed? : Event → Option Key
  | .missed key => some key
  | _ => none

/-- The keys that were looked up in vain, the first one first. -/
def Journal.missed (journal : Journal) : List Key :=
  journal.events.filterMap Event.missed?

theorem Journal.missed_record_of_none {journal : Journal} {event : Event}
    (other : event.missed? = none) : (journal.record event).missed = journal.missed := by
  simp only [missed, events_record, List.filterMap_append]
  split
  · simp [other]
  · simp

theorem Journal.missed_record (journal : Journal) (key : Key) :
    (journal.record (.missed key)).missed =
      journal.missed ++ if journal.admits .trace then [key] else [] := by
  simp only [missed, events_record, List.filterMap_append, Event.level]
  by_cases admits : journal.admits .trace = true
  · simp only [admits, ↓reduceIte]
    rfl
  · simp only [admits, Bool.false_eq_true, ↓reduceIte, List.filterMap_nil]

theorem Journal.admits_record (journal : Journal) (event : Event) (level : Level) :
    (journal.record event).admits level = journal.admits level := by
  simp only [admits, threshold_record]

def Memo.Remembers (memo : Memo) (key : Key) : Prop :=
  ∃ result, memo.find? key = some result

variable {concerned asked below settled : Set Key} {missed more : List Key} {key : Key}

/-- Between two sessions these keys were looked up in vain, in this order and each of them once.
Of the keys concerned, none is forgotten that was remembered. -/
structure Session.Missed (earlier : Session) (concerned : Set Key) (missed : List Key)
    (later : Session) : Prop where
  nodup : missed.Nodup
  concerns : ∀ key ∈ missed, key ∈ concerned
  new : ∀ key ∈ missed, ¬earlier.memo.Remembers key
  counted : later.memo.missCount = earlier.memo.missCount + .ofNat missed.length
  admits : later.journal.admits = earlier.journal.admits
  reported : earlier.journal.admits .trace = true →
    later.journal.missed = earlier.journal.missed ++ missed
  index : later.memo.index = earlier.memo.index
  kept : ∀ key ∈ concerned, earlier.memo.Remembers key → later.memo.Remembers key

namespace Session.Missed

variable {earlier middle later : Session}

theorem trans (first : earlier.Missed concerned missed middle)
    (apart : ∀ key ∈ missed, key ∉ more) (second : middle.Missed concerned more later) :
    earlier.Missed concerned (missed ++ more) later := by
  refine ⟨?nodup, ?concerns, ?new, ?counted, second.admits.trans first.admits, ?reported,
    second.index.trans first.index, ?kept⟩
  case nodup =>
    refine List.nodup_append.2 ⟨first.nodup, second.nodup, ?_⟩
    rintro key missedFirst other missedLast rfl
    exact apart key missedFirst missedLast
  case concerns =>
    intro key member
    rcases List.mem_append.1 member with missedFirst | missedLast
    · exact first.concerns key missedFirst
    · exact second.concerns key missedLast
  case new =>
    intro key member remembers
    rcases List.mem_append.1 member with missedFirst | missedLast
    · exact first.new key missedFirst remembers
    · exact second.new key missedLast
        (first.kept key (second.concerns key missedLast) remembers)
  case counted =>
    rw [second.counted, first.counted, List.length_append, UInt64.ofNat_add, UInt64.add_assoc]
  case reported =>
    intro admits
    rw [second.reported (by rw [first.admits, admits]), first.reported admits, List.append_assoc]
  case kept =>
    intro key concerns remembers
    exact second.kept key concerns (first.kept key concerns remembers)

/-- A lookup that recalls a result is not in vain. -/
theorem of_find?_eq_some {result : Ref} (found : earlier.memo.find? key = some result) :
    earlier.Missed concerned [] { earlier with memo := earlier.memo.count key } := by
  refine ⟨.nil, by simp, by simp, ?_, rfl, by simp, ?_, ?_⟩
  · exact (Memo.counts_of_find? found).2.trans (UInt64.add_zero earlier.memo.missCount).symm
  · exact funext (earlier.memo.index_count key)
  · intro other _ remembers
    simpa only [Memo.Remembers, Memo.find?_count] using remembers

theorem of_find?_eq_none (concerns : key ∈ concerned) (notFound : earlier.memo.find? key = none) :
    earlier.Missed concerned [key]
      { earlier with
        memo := earlier.memo.count key, journal := earlier.journal.record (.missed key) } := by
  refine ⟨List.nodup_singleton key, by simpa using concerns, ?_,
    (Memo.counts_of_not notFound).2, funext (earlier.journal.admits_record _), ?_,
    funext (earlier.memo.index_count key), ?_⟩
  · simp [Memo.Remembers, notFound]
  · intro admits
    simp only [Journal.missed_record, admits, ↓reduceIte]
  · intro other _ remembers
    simpa only [Memo.Remembers, Memo.find?_count] using remembers

end Session.Missed

/-! ## Computations that look up in vain once -/

namespace SessionM

variable {α β : Type} {base : UniqueTable} {action : SessionM α} {next : α → SessionM β}

/-- The computation neither looks up nor remembers. -/
def Quiet (action : SessionM α) : Prop :=
  ∀ session, (finalState (action.run session)).memo = session.memo ∧
    (finalState (action.run session)).journal.admits = session.journal.admits ∧
    (finalState (action.run session)).journal.missed = session.journal.missed

theorem Quiet.pure (answer : α) : Quiet (Pure.pure answer) :=
  fun _ => ⟨rfl, rfl, rfl⟩

theorem Quiet.throw (failure : Failure) : Quiet (MonadExcept.throw failure : SessionM α) :=
  fun _ => ⟨rfl, rfl, rfl⟩

theorem Quiet.record {event : Event} (other : event.missed? = none) :
    Quiet (SessionM.record event) :=
  fun session => ⟨rfl, funext (session.journal.admits_record event),
    Journal.missed_record_of_none other⟩

theorem Quiet.query (question : Manager → Except Failure α) :
    Quiet (SessionM.query question) := by
  intro session
  rw [run_query]
  cases question session.toManager <;> exact ⟨rfl, rfl, rfl⟩

theorem Quiet.publish (node : Node) : Quiet (SessionM.publish node) := by
  intro session
  rw [run_publish, run_onTable]
  cases (UniqueTable.store node).run session.table <;> exact ⟨rfl, rfl, rfl⟩

theorem Quiet.bind (first : Quiet action) (second : ∀ answer, Quiet (next answer)) :
    Quiet (action >>= next) := by
  intro session
  have begun := first session
  cases run : action.run session with
  | ok answer middle =>
      rw [run] at begun
      rw [run_bind_of_ok run]
      obtain ⟨memo, admits, missed⟩ := second answer middle
      exact ⟨memo.trans begun.1, admits.trans begun.2.1, missed.trans begun.2.2⟩
  | error failure middle =>
      rw [run] at begun
      rw [run_bind_of_error run]
      exact begun

theorem Quiet.make (var : Var) (low high : Ref) : Quiet (DecisionDiagram.make var low high) := by
  unfold DecisionDiagram.make
  apply Quiet.bind (.record rfl)
  intro _
  split
  · exact .throw _
  · apply Quiet.bind (.query _)
    intro lowVar
    apply Quiet.bind (.query _)
    intro highVar
    split
    · exact .bind (.record rfl) fun _ => .pure _
    · split
      · exact .throw _
      · split
        · exact .throw _
        · exact .publish _

/-- On a store grown from a given one, and with an entry for every key concerned, the
computation looks up in vain each key at most once, and only keys of a given set.  If it ends
well, these keys are remembered, and so are the keys that it settles. -/
def AsksOnce (base : UniqueTable) (concerned asked settled : Set Key) (action : SessionM α) :
    Prop :=
  ∀ session, GrownFrom base session → Set.InjOn session.memo.index concerned →
    GrownFrom base (finalState (action.run session)) ∧
    ∃ missed, session.Missed concerned missed (finalState (action.run session)) ∧
      (∀ key ∈ missed, key ∈ asked) ∧
      ∀ answer later, action.run session = .ok answer later →
        ∀ key, key ∈ missed ∨ key ∈ settled → later.memo.Remembers key

namespace AsksOnce

theorem of_quiet (grows : Grows action) (quiet : Quiet action) :
    AsksOnce base concerned asked ∅ action := by
  intro session grown _
  obtain ⟨memo, admits, missed⟩ := quiet session
  refine ⟨grown.after grows, [], ?missed, by simp, by simp⟩
  refine ⟨.nil, by simp, by simp, by simp [memo], admits, by simp [missed], by rw [memo], ?kept⟩
  intro key _ remembers
  rwa [memo]

theorem weaken (asks : AsksOnce base concerned asked settled action)
    (subset : asked ⊆ below) : AsksOnce base concerned below settled action := by
  intro session grown injective
  obtain ⟨laterGrown, missed, misses, inside, ends⟩ := asks session grown injective
  exact ⟨laterGrown, missed, misses, fun key member => subset (inside key member), ends⟩

theorem bind (first : AsksOnce base concerned asked below action)
    (second : ∀ answer, AsksOnce base concerned asked settled (next answer)) :
    AsksOnce base concerned asked settled (action >>= next) := by
  intro session grown injective
  obtain ⟨middleGrown, missed, misses, inside, ends⟩ := first session grown injective
  cases run : action.run session with
  | error failure middle =>
      rw [run] at middleGrown misses
      rw [run_bind_of_error run]
      exact ⟨middleGrown, missed, misses, inside, fun _ _ ended => by cases ended⟩
  | ok answer middle =>
      rw [run] at middleGrown misses
      rw [run_bind_of_ok run]
      have remembered := fun key member => ends answer middle run key (.inl member)
      obtain ⟨laterGrown, more, moreMisses, moreInside, moreEnds⟩ :=
        second answer middle middleGrown (misses.index ▸ injective)
      have apart : ∀ key ∈ missed, key ∉ more := fun key member again =>
        moreMisses.new key again (remembered key member)
      refine ⟨laterGrown, missed ++ more, misses.trans apart moreMisses, ?inside, ?ends⟩
      case inside =>
        intro key member
        rcases List.mem_append.1 member with missedFirst | missedLast
        · exact inside key missedFirst
        · exact moreInside key missedLast
      case ends =>
        intro result later ended key member
        have kept := moreMisses.kept
        rw [show finalState ((next answer).run middle) = later by rw [ended]; rfl] at kept
        rcases member with member | member
        · rcases List.mem_append.1 member with missedFirst | missedLast
          · exact kept key (misses.concerns key missedFirst) (remembered key missedFirst)
          · exact moreEnds result later ended key (.inl missedLast)
        · exact moreEnds result later ended key (.inr member)

/-- A question whose answer is the same on all stores that have grown from the given one. -/
theorem query {question : Manager → Except Failure α} {answer : α}
    (answered : ∀ manager : Manager, manager.table.Extends base → question manager = .ok answer)
    (asks : AsksOnce base concerned asked settled (next answer)) :
    AsksOnce base concerned asked settled (SessionM.query question >>= next) := by
  intro session grown injective
  rw [run_bind_of_ok (run_query_of_ok (answered session.toManager grown.grown))]
  exact asks session grown injective

/-- To remember a result settles its key, and takes the entry of no other key concerned. -/
theorem conclude (concerns : key ∈ concerned) (result : Ref) :
    AsksOnce base concerned asked {key} (do
      SessionM.remember key result
      Pure.pure result) := by
  intro session grown injective
  rw [run_bind_of_ok (run_remember key result session)]
  have here : (session.memo.remember key result).find? key = some result := by
    simp [Memo.find?_remember]
  refine ⟨⟨grown.wellFormed, grown.grown⟩, [], ?missed, by simp, ?ends⟩
  case missed =>
    refine ⟨.nil, by simp, by simp, ?counted, rfl, by simp [finalState], ?index, ?kept⟩
    case counted => exact (UInt64.add_zero session.memo.missCount).symm
    case index => exact funext (session.memo.index_remember key · result)
    case kept =>
      intro other otherConcerns remembers
      by_cases same : key = other
      · subst same
        exact ⟨result, here⟩
      · obtain ⟨before, found⟩ := remembers
        have apart : session.memo.index key ≠ session.memo.index other := fun shared =>
          same (injective concerns otherConcerns shared)
        refine ⟨before, ?_⟩
        change (session.memo.remember key result).find? other = some before
        rw [Memo.find?_remember, if_neg apart, found]
  case ends =>
    intro _ _ ended other member
    cases ended
    rcases member with member | rfl
    · cases member
    · exact ⟨result, here⟩

/-- A key that is looked up in vain is asked for once, if it is settled without being asked for
again. -/
theorem lookUp {next : Option Ref → SessionM Ref} (concerns : key ∈ concerned)
    (notBelow : key ∉ below)
    (hit : ∀ result, AsksOnce base concerned below ∅ (next (some result)))
    (miss : AsksOnce base concerned below {key} (next none)) :
    AsksOnce base concerned (insert key below) ∅ (SessionM.lookUp key >>= next) := by
  intro session grown injective
  have sameIndex : (session.memo.count key).index = session.memo.index :=
    funext (session.memo.index_count key)
  cases found : session.memo.find? key with
  | some result =>
      rw [run_bind_of_ok (run_lookUp_of_some found)]
      obtain ⟨laterGrown, missed, misses, inside, ends⟩ := hit result
        { session with memo := session.memo.count key } ⟨grown.wellFormed, grown.grown⟩
        (sameIndex ▸ injective)
      refine ⟨laterGrown, missed, ?_, fun other member => .inr (inside other member), ends⟩
      exact (Session.Missed.of_find?_eq_some found).trans (by simp) misses
  | none =>
      rw [run_bind_of_ok (run_lookUp_of_none found)]
      obtain ⟨laterGrown, missed, misses, inside, ends⟩ := miss
        { session with
          memo := session.memo.count key, journal := session.journal.record (.missed key) }
        ⟨grown.wellFormed, grown.grown⟩ (sameIndex ▸ injective)
      refine ⟨laterGrown, key :: missed, ?missed, ?inside, ?ends⟩
      case missed =>
        refine (Session.Missed.of_find?_eq_none concerns found).trans ?_ misses
        intro other same again
        rw [List.mem_singleton.1 same] at again
        exact notBelow (inside key again)
      case inside =>
        intro other member
        rcases List.mem_cons.1 member with rfl | rest
        · exact .inl rfl
        · exact .inr (inside other rest)
      case ends =>
        intro answer later ended other member
        rcases member with member | member
        · rcases List.mem_cons.1 member with rfl | rest
          · exact ends answer later ended other (.inr rfl)
          · exact ends answer later ended other (.inl rest)
        · cases member

end AsksOnce
end SessionM

/-! ## Subproblems -/

/-- The key under which a connective files the result for two operands. -/
def BinaryOp.keyFor (op : BinaryOp) (left right : Ref) : Key :=
  .binary op (op.arrange left right).1 (op.arrange left right).2

theorem BinaryOp.arrange_comm {op : BinaryOp} (commutative : op.isCommutative = true)
    (left right : Ref) : op.arrange left right = op.arrange right left := by
  by_cases after : right.id < left.id
  · simp [arrange, commutative, Ref.before, after, UInt32.lt_asymm after]
  · by_cases before : left.id < right.id
    · simp [arrange, commutative, Ref.before, after, before]
    · have same := UInt32.le_antisymm (UInt32.not_lt.1 after) (UInt32.not_lt.1 before)
      rw [show left = right from congrArg Ref.mk same]

namespace UniqueTable

variable {base : UniqueTable} {op : BinaryOp} {leftParts rightParts : Set Ref} {left right : Ref}
variable {bound later : Nat}

/-- The keys concerned whose operands test no variable before a bound. -/
def startingAt (base : UniqueTable) (concerned : Set Key) (bound : Nat) : Set Key :=
  { key | key ∈ concerned ∧ base.StartsAt bound key.first ∧ base.StartsAt bound key.second }

/-- Both sets are closed under branches, and the keys for their pairs and negations are all
concerned. -/
structure Covers (base : UniqueTable) (op : BinaryOp) (leftParts rightParts : Set Ref)
    (concerned : Set Key) : Prop where
  leftClosed : base.Closed leftParts
  rightClosed : base.Closed rightParts
  pairs : ∀ left ∈ leftParts, ∀ right ∈ rightParts, left.constant? = none →
    right.constant? = none → op.keyFor left right ∈ concerned
  leftNegations : ∀ ref ∈ leftParts, ref.constant? = none → Key.negation ref ∈ concerned
  rightNegations : ∀ ref ∈ rightParts, ref.constant? = none → Key.negation ref ∈ concerned

theorem Covers.swap (covers : base.Covers op leftParts rightParts concerned)
    (commutative : op.isCommutative = true) : base.Covers op rightParts leftParts concerned := by
  refine ⟨covers.rightClosed, covers.leftClosed, ?_, covers.rightNegations,
    covers.leftNegations⟩
  intro right rightMember left leftMember rightNot leftNot
  rw [BinaryOp.keyFor, BinaryOp.arrange_comm commutative]
  exact covers.pairs left leftMember right rightMember leftNot rightNot

/-- Whichever of two operands is filed first, they are covered in this order. -/
theorem Covers.exists_arranged (covers : base.Covers op leftParts rightParts concerned)
    (leftPart : base.Part leftParts bound left) (rightPart : base.Part rightParts bound right)
    (notConstant : left.constant? = none ∧ right.constant? = none) :
    ∃ first second firstParts secondParts, op.arrange left right = (first, second) ∧
      base.Covers op firstParts secondParts concerned ∧ base.Part firstParts bound first ∧
      base.Part secondParts bound second ∧ first.constant? = none ∧
      .binary op first second ∈ concerned := by
  have member :=
    covers.pairs left leftPart.member right rightPart.member notConstant.1 notConstant.2
  rcases op.arrange_cases left right with same | ⟨commutative, swapped⟩
  · rw [BinaryOp.keyFor, same] at member
    exact ⟨left, right, leftParts, rightParts, same, covers, leftPart, rightPart, notConstant.1,
      member⟩
  · rw [BinaryOp.keyFor, swapped] at member
    exact ⟨right, left, rightParts, leftParts, swapped, covers.swap commutative, rightPart,
      leftPart, notConstant.2, member⟩

end UniqueTable

namespace SessionM.AsksOnce

variable {base : UniqueTable} {parts leftParts rightParts : Set Ref} {bound depth : Nat}
variable {operand left right : Ref} {op : BinaryOp} {top : Var}

/-- A key of which an operand tests a variable is not among those that start later. -/
theorem lookUp_startingAt {next : Option Ref → SessionM Ref} (concerns : key ∈ concerned)
    (firstStarts : base.StartsAt bound key.first) (secondStarts : base.StartsAt bound key.second)
    (tests : base.var? key.first = some top ∨ base.var? key.second = some top)
    (hit : ∀ result,
      AsksOnce base concerned (base.startingAt concerned (top.toNat + 1)) ∅ (next (some result)))
    (miss : AsksOnce base concerned (base.startingAt concerned (top.toNat + 1)) {key}
      (next none)) :
    AsksOnce base concerned (base.startingAt concerned bound) ∅ (SessionM.lookUp key >>= next) := by
  have notBelow : key ∉ base.startingAt concerned (top.toNat + 1) := by
    intro below
    rcases tests with tested | tested
    · exact Nat.not_succ_le_self _ (below.2.1.le_of_var? tested)
    · exact Nat.not_succ_le_self _ (below.2.2.le_of_var? tested)
  have sooner : bound ≤ top.toNat + 1 := by
    rcases tests with tested | tested
    · exact Nat.le_succ_of_le (firstStarts.le_of_var? tested)
    · exact Nat.le_succ_of_le (secondStarts.le_of_var? tested)
  apply (lookUp concerns notBelow hit miss).weaken
  intro other member
  rcases member with rfl | below
  · exact ⟨concerns, firstStarts, secondStarts⟩
  · exact ⟨below.1, below.2.1.mono sooner, below.2.2.mono sooner⟩

theorem record {event : Event} (other : event.missed? = none) :
    AsksOnce base concerned asked ∅ (SessionM.record event) :=
  of_quiet (.record event) (.record other)

theorem pure {α : Type} (answer : α) :
    AsksOnce base concerned asked ∅ (Pure.pure answer : SessionM α) :=
  of_quiet (.pure answer) (.pure answer)

theorem make (var : Var) (low high : Ref) :
    AsksOnce base concerned asked ∅ (DecisionDiagram.make var low high) :=
  of_quiet (.make var low high) (.make var low high)

theorem negateWithin (wellFormed : base.WellFormed) (closed : base.Closed parts)
    (negations : ∀ ref ∈ parts, ref.constant? = none → Key.negation ref ∈ concerned)
    (part : base.Part parts bound operand) :
    AsksOnce base concerned (base.startingAt concerned bound) ∅
      (DecisionDiagram.negateWithin depth operand) := by
  induction depth generalizing operand bound with
  | zero => exact of_quiet (.throw _) (.throw _)
  | succ depth ih =>
      simp only [DecisionDiagram.negateWithin]
      apply bind (record rfl)
      intro _
      cases constant : operand.constant? with
      | some value => exact pure _
      | none =>
          obtain ⟨node, content⟩ := part.starts.knows.exists_node? constant
          obtain ⟨lowPart, highPart⟩ := part.branches wellFormed closed content
          have concerns := negations operand part.member constant
          have tests := UniqueTable.var?_of_node? content
          apply lookUp_startingAt concerns part.starts (part.starts.ofBool false) (.inl tests)
          case hit => exact fun result => bind (record rfl) fun _ => pure _
          case miss =>
            apply query fun manager grown => Manager.node_eq_ok_iff.2 (grown.node? content)
            apply bind (ih lowPart)
            intro low
            apply bind (ih highPart)
            intro high
            exact bind (make _ _ _) fun result => conclude concerns result

theorem applyWithin (wellFormed : base.WellFormed)
    (covers : base.Covers op leftParts rightParts concerned)
    (leftPart : base.Part leftParts bound left) (rightPart : base.Part rightParts bound right) :
    AsksOnce base concerned (base.startingAt concerned bound) ∅
      (DecisionDiagram.applyWithin depth op left right) := by
  induction depth generalizing leftParts rightParts left right bound with
  | zero => exact of_quiet (.throw _) (.throw _)
  | succ depth ih =>
      simp only [DecisionDiagram.applyWithin]
      cases found : op.shortcut? left right with
      | some shortcut =>
          cases shortcut with
          | is result => exact pure _
          | negationOf operand =>
              rcases BinaryOp.constant_of_negationOf found with ⟨rfl, _⟩ | ⟨rfl, _⟩
              · exact negateWithin wellFormed covers.leftClosed covers.leftNegations leftPart
              · exact negateWithin wellFormed covers.rightClosed covers.rightNegations rightPart
      | none =>
          obtain ⟨first, second, firstParts, secondParts, arranged, covers, firstPart, secondPart,
            constant, concerns⟩ := covers.exists_arranged leftPart rightPart
              (BinaryOp.constant?_of_shortcut?_eq_none found)
          simp only [arranged]
          obtain ⟨firstVar, secondVar, firstTested, secondTested, _,
              ⟨first0, first1, firstDivided⟩, second0, second1, secondDivided⟩ :=
            Manager.exists_divided_both wellFormed covers.leftClosed covers.rightClosed firstPart
              secondPart constant
          have tests : base.var? first = some (min firstVar secondVar) ∨
              base.var? second = some (min firstVar secondVar) := by
            rcases Std.min_eq_or (a := firstVar) (b := secondVar) with same | same
            · exact .inl (firstTested.trans (congrArg some same.symm))
            · exact .inr (secondTested.trans (congrArg some same.symm))
          apply lookUp_startingAt concerns firstPart.starts secondPart.starts tests
          case hit => exact fun result => bind (record rfl) fun _ => pure _
          case miss =>
            apply query fun manager grown => by rw [Manager.var_eq, grown.var? firstTested]
            apply query fun manager grown => by rw [Manager.var_eq, grown.var? secondTested]
            apply query firstDivided.cofactors
            apply query secondDivided.cofactors
            apply bind (ih covers firstDivided.lowPart secondDivided.lowPart)
            intro low
            apply bind (ih covers firstDivided.highPart secondDivided.highPart)
            intro high
            apply bind (make _ _ _)
            intro result
            exact bind (record rfl) fun _ => conclude concerns result

theorem perform (wellFormed : base.WellFormed)
    (covers : base.Covers op leftParts rightParts concerned)
    (leftPart : base.Part leftParts bound left) (rightPart : base.Part rightParts bound right) :
    AsksOnce base concerned (base.startingAt concerned bound) ∅
      (Call.apply op left right).perform :=
  bind (bind (record rfl) fun _ => applyWithin wellFormed covers leftPart rightPart)
    fun _ => pure _

end SessionM.AsksOnce

/-! ## Calls -/

/-- The keys of all subproblems that a connective may meet: pairs of decision nodes, one from
either list, and negations of single ones. -/
def BinaryOp.subproblems (op : BinaryOp) (left right : List Ref) : Finset Key :=
  let leftNodes := (left.filter (!·.isTerminal)).toFinset
  let rightNodes := (right.filter (!·.isTerminal)).toFinset
  (leftNodes ×ˢ rightNodes).image (fun operands => op.keyFor operands.1 operands.2) ∪
    (leftNodes ∪ rightNodes).image Key.negation

theorem UniqueTable.covers_subproblems {base : UniqueTable} {leftRefs rightRefs : List Ref}
    (op : BinaryOp) (leftClosed : base.Closed { ref | ref ∈ leftRefs })
    (rightClosed : base.Closed { ref | ref ∈ rightRefs }) :
    base.Covers op { ref | ref ∈ leftRefs } { ref | ref ∈ rightRefs }
      (op.subproblems leftRefs rightRefs) := by
  have decision : ∀ ref : Ref, ref.constant? = none → ref.isTerminal = false := by
    intro ref notConstant
    rw [Ref.isTerminal_eq_isSome_constant?, notConstant]
    rfl
  refine ⟨leftClosed, rightClosed, ?pairs, ?leftNegations, ?rightNegations⟩
  case pairs =>
    intro left leftMember right rightMember leftNot rightNot
    refine Finset.mem_coe.2 (Finset.mem_union_left _ (Finset.mem_image.2 ⟨(left, right), ?_, rfl⟩))
    simp_all
  case leftNegations =>
    intro ref member notConstant
    refine Finset.mem_coe.2 (Finset.mem_union_right _ (Finset.mem_image.2 ⟨ref, ?_, rfl⟩))
    simp_all
  case rightNegations =>
    intro ref member notConstant
    refine Finset.mem_coe.2 (Finset.mem_union_right _ (Finset.mem_image.2 ⟨ref, ?_, rfl⟩))
    simp_all

/-- If the computed table has an entry for each subproblem of a call to a connective, none of
them is looked up in vain twice, whether the call is answered or fails.  So there are no more
such lookups than subproblems, whatever was remembered before.  They are counted in any case; a
journal that reports everything names them. -/
theorem lookups_of_reachable {session : Session}
    (reachable : session.toManager.Reachable Call.isSafe) (op : BinaryOp) {left right : Ref}
    (leftKnown : session.contains left = true) (rightKnown : session.contains right = true) :
    ∃ leftReached rightReached, session.descendants [left] = .ok leftReached ∧
      session.descendants [right] = .ok rightReached ∧
      let keys := op.subproblems leftReached rightReached
      let later := (Call.apply op left right).after session
      (Set.InjOn session.memo.index keys → ∃ missed : List Key, missed.Nodup ∧
        (∀ key ∈ missed, key ∈ keys) ∧
        (session.journal.admits .trace = true →
          later.journal.missed = session.journal.missed ++ missed) ∧
        later.memo.missCount = session.memo.missCount + .ofNat missed.length ∧
        missed.length ≤ keys.card ∧
        later.memo.misses ≤ session.memo.misses + keys.card) := by
  have wellFormed := reachable.wellFormed
  have leftRoot : ∀ root ∈ [left], session.contains root = true := by simpa using leftKnown
  have rightRoot : ∀ root ∈ [right], session.contains root = true := by simpa using rightKnown
  obtain ⟨leftReached, leftListed, leftClosed, leftParts⟩ :=
    Manager.exists_closed_descendants wellFormed leftRoot
  obtain ⟨rightReached, rightListed, rightClosed, rightParts⟩ :=
    Manager.exists_closed_descendants wellFormed rightRoot
  refine ⟨leftReached, rightReached, leftListed, rightListed, ?_⟩
  intro keys later injective
  have covers := UniqueTable.covers_subproblems op leftClosed rightClosed
  obtain ⟨_, missed, misses, _⟩ := SessionM.AsksOnce.perform wellFormed covers
    (leftParts left List.mem_cons_self) (rightParts right List.mem_cons_self) session
    ⟨wellFormed, .refl _⟩ injective
  rw [← Call.after_eq] at misses
  have few : missed.length ≤ keys.card := by
    rw [← List.toFinset_card_of_nodup misses.nodup]
    exact Finset.card_le_card fun key member => misses.concerns key (List.mem_toFinset.1 member)
  have grown : later.memo.misses ≤ session.memo.misses + missed.length := by
    rw [Memo.misses, Memo.misses, misses.counted, UInt64.toNat_add, UInt64.toNat_ofNat']
    exact (Nat.mod_le _ _).trans (Nat.add_le_add_left (Nat.mod_le _ _) _)
  exact ⟨missed, misses.nodup, misses.concerns, misses.reported, misses.counted, few,
    grown.trans (Nat.add_le_add_left few _)⟩

/-- Only the members of the lists count. -/
theorem BinaryOp.subproblems_of_perm {left right otherLeft otherRight : List Ref} (op : BinaryOp)
    (leftSame : left.Perm otherLeft) (rightSame : right.Perm otherRight) :
    op.subproblems left right = op.subproblems otherLeft otherRight := by
  simp only [subproblems, List.toFinset_eq_of_perm _ _ (leftSame.filter _),
    List.toFinset_eq_of_perm _ _ (rightSame.filter _)]

theorem Manager.perm_descendants {manager : Manager} {roots reached refs : List Ref}
    (listed : manager.descendants roots = .ok reached)
    (walked : (manager.walk Node.lowFirst roots).map visited = .ok refs) : reached.Perm refs := by
  obtain ⟨stops, walk, rfl⟩ := exists_walk_of_descendants listed
  rw [walk] at walked
  cases walked
  exact List.mergeSort_perm _ _

/-- A session that reports everything, with the parity of three variables and room for sixty-four
results. -/
def Session.layered : Session :=
  ({ fresh with
      table := .empty 12 (by decide) (by decide)
      memo := .empty 64 63 (by decide)
      budget := ⟨192, 1536⟩
      journal := { threshold := some .trace } } : Session).run
    [.makeVar 2, .makeVar 1, .makeVar 0, .apply .xor ⟨3⟩ ⟨7⟩, .apply .xor ⟨10⟩ ⟨12⟩]

theorem Session.reachable_layered : layered.toManager.Reachable Call.isSafe :=
  Manager.Reachable.run (@Manager.Reachable.created Call.isSafe 1536 ⟨192, 1536⟩ {} {} _ rfl) _
    (by decide)

/-- The conjunction of the parity with its last variable meets one of ten subproblems twice.  It
looks four of them up in vain, each of them once. -/
theorem lookups_of_layered :
    Session.layered.toManager.Reachable Call.isSafe ∧ Session.layered.contains ⟨13⟩ = true ∧
      Session.layered.contains ⟨7⟩ = true ∧
      ∃ leftReached rightReached, Session.layered.descendants [⟨13⟩] = .ok leftReached ∧
        Session.layered.descendants [⟨7⟩] = .ok rightReached ∧
        Set.InjOn Session.layered.memo.index (BinaryOp.and.subproblems leftReached rightReached) ∧
        ∃ missed : List Key, missed.Nodup ∧ missed.length = 4 ∧
          ((Call.apply .and ⟨13⟩ ⟨7⟩).after Session.layered).journal.missed =
            Session.layered.journal.missed ++ missed := by
  have leftKnown : Session.layered.contains ⟨13⟩ = true := by decide +kernel
  have rightKnown : Session.layered.contains ⟨7⟩ = true := by decide +kernel
  obtain ⟨leftReached, rightReached, leftListed, rightListed, once⟩ :=
    lookups_of_reachable Session.reachable_layered .and leftKnown rightKnown
  have keys : BinaryOp.and.subproblems leftReached rightReached =
      BinaryOp.and.subproblems [⟨13⟩, ⟨12⟩, ⟨9⟩, ⟨7⟩, ⟨2⟩, ⟨0⟩, ⟨1⟩] [⟨7⟩, ⟨0⟩, ⟨1⟩] :=
    BinaryOp.subproblems_of_perm .and (Manager.perm_descendants leftListed (by decide +kernel))
      (Manager.perm_descendants rightListed (by decide +kernel))
  have distinct : ∀ first ∈ BinaryOp.and.subproblems leftReached rightReached,
      ∀ second ∈ BinaryOp.and.subproblems leftReached rightReached,
        Session.layered.memo.index first = Session.layered.memo.index second →
          first = second := by
    rw [keys]
    decide +kernel
  have injective :
      Set.InjOn Session.layered.memo.index (BinaryOp.and.subproblems leftReached rightReached) :=
    fun first firstMember second secondMember =>
      distinct first (Finset.mem_coe.1 firstMember) second (Finset.mem_coe.1 secondMember)
  obtain ⟨missed, nodup, _, reported, counted, few, _⟩ := once injective
  have traced : Session.layered.journal.admits .trace = true := by decide +kernel
  have misses : ((Call.apply .and ⟨13⟩ ⟨7⟩).after Session.layered).memo.missCount =
      Session.layered.memo.missCount + .ofNat 4 := by decide +kernel
  have ten : (BinaryOp.and.subproblems leftReached rightReached).card = 10 := by
    rw [keys]
    decide +kernel
  have four : missed.length = 4 := by
    have same : UInt64.ofNat missed.length = .ofNat 4 :=
      UInt64.add_right_inj _ |>.1 (counted.symm.trans misses)
    have fits : missed.length < UInt64.size := by
      rw [ten] at few
      exact Nat.lt_of_le_of_lt few (by decide)
    rw [← UInt64.toNat_ofNat_of_lt' fits, same]
    rfl
  exact ⟨Session.reachable_layered, leftKnown, rightKnown, leftReached, rightReached, leftListed,
    rightListed, injective, missed, nodup, four, reported traced⟩

end DecisionDiagram
