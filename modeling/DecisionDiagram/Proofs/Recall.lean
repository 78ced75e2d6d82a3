import DecisionDiagram.Proofs.Honest
import DecisionDiagram.Proofs.Reservation
import DecisionDiagram.Proofs.Series

/-!
# Recalling results

What a computed table recalls is told by its history alone: the result last remembered at an
entry since all was forgotten, provided that it was remembered for the operator and operands
asked for.  The counts of the table are counts of places in that history, as words.
-/

namespace DecisionDiagram

/-- The call names as many operands as its operator takes. -/
def MemoCall.isSized : MemoCall Ref → Bool
  | .lookUp op operands => operands.length == op.arity
  | .remember op operands _ => operands.length == op.arity
  | _ => true

namespace Memo

variable {memo start : Memo} {calls : List (MemoCall Ref)} {call : MemoCall Ref}
variable {entry : Nat} {op : Operator} {operands : List Ref} {key : Key} {result : Ref}

/-- The table after some calls, also those that failed. -/
def serve (memo : Memo) (calls : List (MemoCall Ref)) : Memo :=
  calls.foldl (fun memo call => finalState (call.perform.run memo)) memo

/-- The entry that belongs to an operator and its operands, if their number is right. -/
def indexOf? (memo : Memo) (op : Operator) (operands : List Ref) : Option Nat :=
  (Key.ofOperands? op operands).map memo.index

/-! ## Histories -/

/-- The call does away with what an entry holds. -/
def Overwrites (start : Memo) (entry : Nat) : MemoCall Ref → Prop
  | .clear => True
  | .remember op operands _ => start.indexOf? op operands = some entry
  | _ => False

/-- Since all was forgotten, the last result remembered at an entry is this one. -/
def LastRemembered (start : Memo) (calls : List (MemoCall Ref)) (entry : Nat) (op : Operator)
    (operands : List Ref) (result : Ref) : Prop :=
  ∃ before rest, calls = before ++ .remember op operands result :: rest ∧
    start.indexOf? op operands = some entry ∧ ∀ call ∈ rest, ¬start.Overwrites entry call

/-- The entries at which a result was remembered since all was forgotten. -/
def written (start : Memo) (calls : List (MemoCall Ref)) : Set Nat :=
  { entry | ∃ before rest op operands result,
    calls = before ++ .remember op operands result :: rest ∧
      start.indexOf? op operands = some entry ∧ .clear ∉ rest }

def LooksUp (_before : List (MemoCall Ref)) (call : MemoCall Ref) : Prop :=
  ∃ op operands, call = .lookUp op operands

/-- The call asks for a result and is answered with one. -/
def Recalls (start : Memo) (before : List (MemoCall Ref)) (call : MemoCall Ref) : Prop :=
  ∃ op operands result after, call = .lookUp op operands ∧
    call.perform.run (start.serve before) = .ok (.ref? (some result)) after

/-- The call asks for a result while another operator or other operands hold its entry. -/
def Collides (start : Memo) (before : List (MemoCall Ref)) (call : MemoCall Ref) : Prop :=
  ∃ op operands entry, call = .lookUp op operands ∧ start.indexOf? op operands = some entry ∧
    ∃ otherOp otherOperands result,
      start.LastRemembered before entry otherOp otherOperands result ∧
        (otherOp, otherOperands) ≠ (op, operands)

theorem serve_snoc (start : Memo) (calls : List (MemoCall Ref)) (call : MemoCall Ref) :
    start.serve (calls ++ [call]) = finalState (call.perform.run (start.serve calls)) := by
  simp only [serve, List.foldl_append, List.foldl_cons, List.foldl_nil]

/-- A call that overwrites an entry leaves there what it remembers, or nothing. -/
theorem lastRemembered_snoc_of_overwrites (overwrites : start.Overwrites entry call) :
    start.LastRemembered (calls ++ [call]) entry op operands result ↔
      call = .remember op operands result := by
  constructor
  · rintro ⟨before, rest, split, _, untouched⟩
    rcases snoc_eq_append_cons_iff.1 split with ⟨_, same, _⟩ | ⟨shorter, rfl, _⟩
    · exact same
    · exact absurd overwrites (untouched call (by simp))
  · rintro rfl
    exact ⟨calls, [], rfl, overwrites, fun _ member => absurd member List.not_mem_nil⟩

theorem lastRemembered_snoc_of_not (keeps : ¬start.Overwrites entry call) :
    start.LastRemembered (calls ++ [call]) entry op operands result ↔
      start.LastRemembered calls entry op operands result := by
  constructor
  · rintro ⟨before, rest, split, belongs, untouched⟩
    rcases snoc_eq_append_cons_iff.1 split with ⟨_, rfl, _⟩ | ⟨shorter, rfl, rfl⟩
    · exact absurd belongs keeps
    · exact ⟨before, shorter, rfl, belongs, fun other member => untouched other (by simp [member])⟩
  · rintro ⟨before, rest, rfl, belongs, untouched⟩
    refine ⟨before, rest ++ [call], by simp, belongs, fun other member => ?_⟩
    rcases List.mem_append.1 member with earlier | last
    · exact untouched other earlier
    · rwa [List.mem_singleton.1 last]

/-- What a call does to the entries written: nothing, unless it remembers or forgets. -/
theorem mem_written_snoc :
    entry ∈ start.written (calls ++ [call]) ↔
      (entry ∈ start.written calls ∧ call ≠ .clear) ∨
        ∃ op operands result, call = .remember op operands result ∧
          start.indexOf? op operands = some entry := by
  constructor
  · intro member
    obtain ⟨before, rest, op, operands, result, split, belongs, since⟩ := member
    rcases snoc_eq_append_cons_iff.1 split with ⟨_, last, _⟩ | ⟨shorter, rfl, earlier⟩
    · exact .inr ⟨op, operands, result, last, belongs⟩
    · refine .inl ⟨⟨before, shorter, op, operands, result, earlier, belongs, ?_⟩, ?_⟩
      · exact fun forgotten => since (List.mem_append_left _ forgotten)
      · rintro rfl
        exact since (by simp)
  · intro known
    rcases known with ⟨⟨before, rest, op, operands, result, rfl, belongs, since⟩, keeps⟩ |
      ⟨op, operands, result, rfl, belongs⟩
    · refine ⟨before, rest ++ [call], op, operands, result, by simp, belongs, ?_⟩
      intro forgotten
      rcases List.mem_append.1 forgotten with earlier | last
      · exact since earlier
      · exact keeps (List.mem_singleton.1 last).symm
    · exact ⟨calls, [], op, operands, result, rfl, belongs, List.not_mem_nil⟩

/-! ## One call -/

theorem exists_key_of_length (sized : operands.length = op.arity) :
    ∃ key, Key.ofOperands? op operands = some key :=
  Option.isSome_iff_exists.1 ((Key.isSome_ofOperands? op operands).2 sized)

/-- A key has one operator and one list of operands. -/
theorem operands_unique {otherOp : Operator} {otherOperands : List Ref}
    (made : Key.ofOperands? op operands = some key)
    (otherMade : Key.ofOperands? otherOp otherOperands = some key) :
    (otherOp, otherOperands) = (op, operands) := by
  obtain ⟨sameOp, sameOperands⟩ := Key.operands_of_ofOperands? made
  obtain ⟨otherSameOp, otherSameOperands⟩ := Key.operands_of_ofOperands? otherMade
  rw [← sameOp, ← sameOperands, otherSameOp, otherSameOperands]

theorem indexOf?_of_key (made : Key.ofOperands? op operands = some key) :
    memo.indexOf? op operands = some (memo.index key) := by
  simp [indexOf?, made]

theorem run_lookUp (made : Key.ofOperands? op operands = some key) (memo : Memo) :
    (MemoCall.lookUp op operands).perform.run memo =
      .ok (.ref? (memo.find? key)) (memo.count key) := by
  rw [Call.run_lookUp_memo, made]

theorem run_remember (made : Key.ofOperands? op operands = some key) (result : Ref) (memo : Memo) :
    (MemoCall.remember op operands result).perform.run memo =
      .ok .unit (memo.remember key result) := by
  simp only [MemoCall.perform, MemoCall.keyOf, made]
  rfl

/-- A call with the right number of operands looks a key up, remembers a result, forgets
everything, or leaves the table as it is. -/
theorem sized_cases (sized : call.isSized = true) :
    (∃ op operands key, call = .lookUp op operands ∧ Key.ofOperands? op operands = some key ∧
      ∀ memo, finalState (call.perform.run memo) = memo.count key) ∨
    (∃ op operands key result, call = .remember op operands result ∧
      Key.ofOperands? op operands = some key ∧
      ∀ memo, finalState (call.perform.run memo) = memo.remember key result) ∨
    (call = .clear ∧ ∀ memo, finalState (call.perform.run memo) = memo.clear) ∨
    ((∀ start : Memo, ∀ entry, ¬start.Overwrites entry call) ∧ call ≠ .clear ∧
      (∀ before, ¬LooksUp before call) ∧ ∀ memo, finalState (call.perform.run memo) = memo) := by
  cases call with
  | lookUp op operands =>
      obtain ⟨key, made⟩ := exists_key_of_length (beq_iff_eq.1 sized)
      exact .inl ⟨op, operands, key, rfl, made, fun memo => by rw [run_lookUp made]; rfl⟩
  | remember op operands result =>
      obtain ⟨key, made⟩ := exists_key_of_length (beq_iff_eq.1 sized)
      exact .inr (.inl ⟨op, operands, key, result, rfl, made,
        fun memo => by rw [run_remember made]; rfl⟩)
  | clear => exact .inr (.inr (.inl ⟨rfl, fun _ => rfl⟩))
  | size | capacity | isEmpty =>
      exact .inr (.inr (.inr ⟨fun _ _ overwrites => overwrites, nofun, nofun, fun _ => rfl⟩))

/-- A result is recalled for exactly the key with which it is held. -/
theorem find?_eq_some_iff :
    memo.find? key = some result ↔ memo.entries[memo.index key]? = some ⟨key, result⟩ := by
  simp only [find?]
  cases memo.entries[memo.index key]? with
  | none => simp
  | some held =>
      obtain ⟨heldKey, heldResult⟩ := held
      by_cases same : heldKey = key <;> simp [same]

theorem counts_of_find? (found : memo.find? key = some result) :
    (memo.count key).hitCount = memo.hitCount + 1 ∧
      (memo.count key).missCount = memo.missCount := by
  simp [count, find?_eq_some_iff.1 found]

theorem counts_of_not (missed : memo.find? key = none) :
    (memo.count key).hitCount = memo.hitCount ∧
      (memo.count key).missCount = memo.missCount + 1 := by
  simp only [find?] at missed
  simp only [count]
  cases held : memo.entries[memo.index key]? with
  | none => simp
  | some stored =>
      have different : stored.key ≠ key := by
        intro same
        simp [held, same] at missed
      simp [different]

theorem faultCount_count (memo : Memo) (key : Key) :
    (∃ stored, memo.entries[memo.index key]? = some stored ∧ stored.key ≠ key) ∧
        (memo.count key).faultCount = memo.faultCount + 1 ∨
      (¬∃ stored, memo.entries[memo.index key]? = some stored ∧ stored.key ≠ key) ∧
        (memo.count key).faultCount = memo.faultCount := by
  simp only [count]
  cases memo.entries[memo.index key]? with
  | none => simp
  | some stored => by_cases same : stored.key = key <;> simp [same]

/-- The size counts the entries that hold something. -/
theorem size_eq_ncard (memo : Memo) :
    memo.size = { entry : Nat | ∃ held : Entry, memo.entries[entry]? = some held }.ncard := by
  have occupied : { entry : Nat | ∃ held : Entry, memo.entries[entry]? = some held } =
      (memo.entries.keys.toFinset : Set Nat) := by
    ext entry
    simp only [Set.mem_ofPred_eq, Finset.mem_coe, List.mem_toFinset, Std.TreeMap.mem_keys,
      Std.TreeMap.mem_iff_isSome_getElem?, Option.isSome_iff_exists]
  rw [occupied, Set.ncard_coe_finset, List.toFinset_card_of_nodup Std.TreeMap.nodup_keys,
    Std.TreeMap.length_keys]
  rfl

/-! ## All calls -/

/-- Calls keep the number of entries and select among them as before. -/
theorem shape_serve (sized : ∀ call ∈ calls, call.isSized = true) :
    (start.serve calls).capacity = start.capacity ∧
      ∀ key, (start.serve calls).index key = start.index key := by
  induction calls using List.reverseRecOn with
  | nil => exact ⟨rfl, fun _ => rfl⟩
  | append_singleton calls call ih =>
      obtain ⟨capacity, index⟩ := ih fun other member => sized other (List.mem_append_left _ member)
      rw [serve_snoc]
      rcases sized_cases (sized call (by simp)) with
        ⟨_, _, _, _, _, after⟩ | ⟨_, _, _, _, _, _, after⟩ | ⟨_, after⟩ | ⟨_, _, _, after⟩
      · simpa only [after, capacity_count, index_count] using ⟨capacity, index⟩
      · rw [after]
        exact ⟨capacity, index⟩
      · rw [after]
        exact ⟨capacity, index⟩
      · rw [after]
        exact ⟨capacity, index⟩

/-- An entry holds what was last remembered there. -/
theorem entries_serve_iff (nothing : start.entries = ∅)
    (sized : ∀ call ∈ calls, call.isSized = true) (entry : Nat) (held : Entry) :
    (start.serve calls).entries[entry]? = some held ↔ ∃ op operands,
      Key.ofOperands? op operands = some held.key ∧
        start.LastRemembered calls entry op operands held.result := by
  induction calls using List.reverseRecOn with
  | nil => simp [serve, nothing, LastRemembered]
  | append_singleton calls call ih =>
      have before := ih fun other member => sized other (List.mem_append_left _ member)
      have sameIndex : ∀ key, (start.serve calls).index key = start.index key :=
        (shape_serve fun other member => sized other (List.mem_append_left _ member)).2
      rw [serve_snoc]
      rcases sized_cases (sized call (by simp)) with
        ⟨op, operands, key, rfl, _, after⟩ | ⟨op, operands, key, result, rfl, made, after⟩ |
        ⟨rfl, after⟩ | ⟨keeps, _, _, after⟩
      · have keeps : ¬start.Overwrites entry (.lookUp op operands) := fun overwrites => overwrites
        simp only [after, entries_count, before, lastRemembered_snoc_of_not keeps]
      · simp only [after, entries_remember, Std.TreeMap.getElem?_insert, Nat.compare_eq_eq,
          sameIndex]
        by_cases here : start.index key = entry
        · have overwrites : start.Overwrites entry (.remember op operands result) := by
            rw [← here]
            exact indexOf?_of_key made
          simp only [here, ↓reduceIte, lastRemembered_snoc_of_overwrites overwrites]
          constructor
          · intro same
            cases same
            exact ⟨op, operands, made, rfl⟩
          · intro same
            obtain ⟨_, _, otherMade, same⟩ := same
            cases same
            rw [made] at otherMade
            cases otherMade
            rfl
        · have keeps : ¬start.Overwrites entry (.remember op operands result) := by
            intro overwrites
            have same := (indexOf?_of_key made).symm.trans overwrites
            exact here (Option.some.inj same)
          simp only [here, ↓reduceIte, before, lastRemembered_snoc_of_not keeps]
      · have overwrites : start.Overwrites entry .clear := trivial
        simp [after, clear, lastRemembered_snoc_of_overwrites overwrites]
      · simp only [after, before, lastRemembered_snoc_of_not (keeps start entry)]

/-- Exactly the entries written since all was forgotten hold something. -/
theorem mem_written_serve_iff (nothing : start.entries = ∅)
    (sized : ∀ call ∈ calls, call.isSized = true) (entry : Nat) :
    (∃ held : Entry, (start.serve calls).entries[entry]? = some held) ↔
      entry ∈ start.written calls := by
  induction calls using List.reverseRecOn with
  | nil => simp [serve, nothing, written]
  | append_singleton calls call ih =>
      have before := ih fun other member => sized other (List.mem_append_left _ member)
      have sameIndex : ∀ key, (start.serve calls).index key = start.index key :=
        (shape_serve fun other member => sized other (List.mem_append_left _ member)).2
      rw [serve_snoc, mem_written_snoc]
      rcases sized_cases (sized call (by simp)) with
        ⟨op, operands, key, rfl, _, after⟩ | ⟨op, operands, key, result, rfl, made, after⟩ |
        ⟨rfl, after⟩ | ⟨keeps, notClear, _, after⟩
      · simp [after, before]
      · have belongs : start.indexOf? op operands = some (start.index key) := indexOf?_of_key made
        simp only [after, entries_remember, Std.TreeMap.getElem?_insert, Nat.compare_eq_eq,
          sameIndex]
        by_cases here : start.index key = entry
        · subst here
          simp [belongs]
        · simp [here, before, belongs]
      · simp [after, clear]
      · have noResult : ¬∃ op operands result, call = .remember op operands result ∧
            start.indexOf? op operands = some entry := by
          intro remembers
          obtain ⟨op, operands, result, rfl, belongs⟩ := remembers
          exact keeps start entry belongs
        simp only [after, before, ne_eq, notClear, not_false_eq_true, and_true, noResult, or_false]

/-- A key is looked up with success exactly if its result was the last one remembered at
its entry. -/
theorem find?_serve_iff (nothing : start.entries = ∅)
    (sized : ∀ call ∈ calls, call.isSized = true)
    (made : Key.ofOperands? op operands = some key) :
    (start.serve calls).find? key = some result ↔
      start.LastRemembered calls (start.index key) op operands result := by
  rw [find?_eq_some_iff, (shape_serve sized).2, entries_serve_iff nothing sized]
  constructor
  · intro remembered
    obtain ⟨otherOp, otherOperands, otherMade, last⟩ := remembered
    cases operands_unique made otherMade
    exact last
  · exact fun last => ⟨op, operands, made, last⟩

theorem recalls_iff (made : Key.ofOperands? op operands = some key) :
    start.Recalls calls (.lookUp op operands) ↔
      ∃ result, (start.serve calls).find? key = some result := by
  simp only [Recalls, run_lookUp made]
  constructor
  · intro recalled
    obtain ⟨_, _, result, _, _, answered⟩ := recalled
    cases found : (start.serve calls).find? key with
    | none => simp [found] at answered
    | some result => exact ⟨result, rfl⟩
  · intro recalled
    obtain ⟨result, found⟩ := recalled
    exact ⟨op, operands, result, _, rfl, by rw [found]⟩

theorem collides_iff (nothing : start.entries = ∅)
    (sized : ∀ call ∈ calls, call.isSized = true)
    (made : Key.ofOperands? op operands = some key) :
    start.Collides calls (.lookUp op operands) ↔
      ∃ held, (start.serve calls).entries[(start.serve calls).index key]? = some held ∧
        held.key ≠ key := by
  simp only [entries_serve_iff nothing sized, (shape_serve sized).2]
  constructor
  · intro collides
    obtain ⟨_, _, entry, same, belongs, otherOp, otherOperands, result, last, different⟩ := collides
    cases same
    rw [indexOf?_of_key made] at belongs
    cases belongs
    obtain ⟨otherKey, otherMade, _⟩ := Option.map_eq_some_iff.1 last.choose_spec.choose_spec.2.1
    refine ⟨⟨otherKey, result⟩, ⟨otherOp, otherOperands, otherMade, last⟩, ?_⟩
    intro sameKey
    cases sameKey
    exact different (operands_unique made otherMade)
  · intro holds
    obtain ⟨held, ⟨otherOp, otherOperands, otherMade, last⟩, different⟩ := holds
    refine ⟨op, operands, start.index key, rfl, indexOf?_of_key made, otherOp, otherOperands,
      held.result, last, ?_⟩
    intro same
    cases same
    rw [made] at otherMade
    cases otherMade
    exact different rfl

theorem Recalls.looksUp (recalls : start.Recalls calls call) : LooksUp calls call := by
  obtain ⟨op, operands, _, _, same, _⟩ := recalls
  exact ⟨op, operands, same⟩

theorem Collides.looksUp (collides : start.Collides calls call) : LooksUp calls call := by
  obtain ⟨op, operands, _, same, _⟩ := collides
  exact ⟨op, operands, same⟩

/-- The counts of a table are counts of places in its history, up to the size of a word. -/
structure Counted (start : Memo) (calls : List (MemoCall Ref)) (memo : Memo) : Prop where
  hits : memo.hitCount = .ofNat (places start.Recalls calls).ncard
  lookups : memo.hitCount + memo.missCount = .ofNat (places LooksUp calls).ncard
  faults : memo.faultCount = .ofNat (places start.Collides calls).ncard

/-- A lookup is counted as one, as a hit or not, and as a fault or not. -/
theorem Counted.lookUp (counted : Counted start calls (start.serve calls))
    (nothing : start.entries = ∅) (sized : ∀ call ∈ calls, call.isSized = true)
    (made : Key.ofOperands? op operands = some key) :
    Counted start (calls ++ [.lookUp op operands]) ((start.serve calls).count key) := by
  have looksUp : LooksUp calls (.lookUp op operands) := ⟨op, operands, rfl⟩
  refine ⟨?hits, ?lookups, ?faults⟩
  case hits =>
    cases found : (start.serve calls).find? key with
    | some result =>
        rw [ncard_places_snoc_of ((recalls_iff made).2 ⟨result, found⟩), UInt64.ofNat_add,
          (counts_of_find? found).1, counted.hits]
        rfl
    | none =>
        have missed : ¬start.Recalls calls (.lookUp op operands) := by
          rw [recalls_iff made, found]
          simp
        rw [places_snoc_of_not missed, (counts_of_not found).1, counted.hits]
  case lookups =>
    rw [ncard_places_snoc_of looksUp, UInt64.ofNat_add, ← counted.lookups]
    cases found : (start.serve calls).find? key with
    | some result =>
        rw [(counts_of_find? found).1, (counts_of_find? found).2, UInt64.add_assoc,
          UInt64.add_comm 1, ← UInt64.add_assoc]
        rfl
    | none =>
        rw [(counts_of_not found).1, (counts_of_not found).2, UInt64.add_assoc]
        rfl
  case faults =>
    rcases faultCount_count (start.serve calls) key with ⟨other, count⟩ | ⟨noOther, count⟩
    · rw [ncard_places_snoc_of ((collides_iff nothing sized made).2 other), UInt64.ofNat_add, count,
        counted.faults]
      rfl
    · rw [places_snoc_of_not (mt (collides_iff nothing sized made).1 noOther), count,
        counted.faults]

/-- Other calls are not counted. -/
theorem Counted.other {later : Memo} (counted : Counted start calls memo)
    (notLookUp : ¬LooksUp calls call) (sameHits : later.hitCount = memo.hitCount)
    (sameMisses : later.missCount = memo.missCount)
    (sameFaults : later.faultCount = memo.faultCount) : Counted start (calls ++ [call]) later := by
  refine ⟨?_, ?_, ?_⟩
  · rw [places_snoc_of_not (mt Recalls.looksUp notLookUp), sameHits, counted.hits]
  · rw [places_snoc_of_not notLookUp, sameHits, sameMisses, counted.lookups]
  · rw [places_snoc_of_not (mt Collides.looksUp notLookUp), sameFaults, counted.faults]

theorem counted_serve (nothing : start.entries = ∅) (fresh : Counted start [] start)
    (sized : ∀ call ∈ calls, call.isSized = true) : Counted start calls (start.serve calls) := by
  induction calls using List.reverseRecOn with
  | nil => exact fresh
  | append_singleton calls call ih =>
      have before := fun other member => sized other (List.mem_append_left [call] member)
      have counted := ih before
      rw [serve_snoc]
      rcases sized_cases (sized call (by simp)) with
        ⟨op, operands, key, rfl, made, after⟩ | ⟨_, _, _, _, rfl, _, after⟩ | ⟨rfl, after⟩ |
        ⟨_, _, notLookUp, after⟩
      · rw [after]
        exact counted.lookUp nothing before made
      · exact counted.other (by simp [LooksUp]) (by simp [after, remember])
          (by simp [after, remember]) (by simp [after, remember])
      · exact counted.other (by simp [LooksUp]) (by simp [after, clear]) (by simp [after, clear])
          (by simp [after, clear])
      · exact counted.other (notLookUp calls) (by rw [after]) (by rw [after]) (by rw [after])

/-- Fewer lookups than there are words are counted exactly. -/
theorem Counted.of_few (counted : Counted start calls memo)
    (few : (places LooksUp calls).ncard < UInt64.size) :
    memo.hits + memo.misses = (places LooksUp calls).ncard ∧
      memo.hits = (places start.Recalls calls).ncard ∧
      memo.faults = (places start.Collides calls).ncard := by
  have recalled := ncard_places_mono (@Recalls.looksUp start) calls
  have collided := ncard_places_mono (@Collides.looksUp start) calls
  have hits : memo.hits = (places start.Recalls calls).ncard := by
    rw [Memo.hits, counted.hits]
    exact UInt64.toNat_ofNat_of_lt' (Nat.lt_of_le_of_lt recalled few)
  have faults : memo.faults = (places start.Collides calls).ncard := by
    rw [Memo.faults, counted.faults]
    exact UInt64.toNat_ofNat_of_lt' (Nat.lt_of_le_of_lt collided few)
  have lookups : (memo.hits + memo.misses) % UInt64.size = (places LooksUp calls).ncard := by
    rw [← UInt64.toNat_ofNat_of_lt' few, ← counted.lookups, UInt64.toNat_add]
    rfl
  refine ⟨?_, hits, faults⟩
  have bound : memo.misses < UInt64.size := memo.missCount.toNat_lt_size
  simp only [UInt64.size] at few lookups bound
  omega

/-- What a new computed table of two to the power of some bits entries becomes under any series
of calls with the right numbers of operands.  A lookup is answered with a result exactly if,
since all was forgotten, the last result remembered at the entry of its operator and operands was
remembered for just these, and then with that result.  The counts are those of all lookups, of
those that recalled a result, and of those whose entry other operands or another operator held:
as words, which wrap around, and exactly as long as there are fewer lookups than words.  The size
counts the entries written since all was forgotten. -/
theorem recalled_of_serve {limit bits : Nat} (bits_le : bits ≤ maxMemoBits)
    (fits : 2 ^ bits * entryBytes ≤ limit) {calls : List (MemoCall Ref)}
    (sized : ∀ call ∈ calls, call.isSized = true) (journal : Journal) :
    ∃ start after, (withBits limit bits).run journal = .ok start after ∧
      let memo := start.serve calls
      (∀ op operands, operands.length = op.arity → ∃ entry < 2 ^ bits,
        start.indexOf? op operands = some entry ∧ memo.indexOf? op operands = some entry ∧
        ∃ found after, (MemoCall.lookUp op operands).perform.run memo = .ok (.ref? found) after ∧
          ∀ result, found = some result ↔
            start.LastRemembered calls entry op operands result) ∧
      memo.hitCount + memo.missCount = .ofNat (places LooksUp calls).ncard ∧
      memo.hitCount = .ofNat (places start.Recalls calls).ncard ∧
      memo.faultCount = .ofNat (places start.Collides calls).ncard ∧
      ((places LooksUp calls).ncard < UInt64.size →
        memo.hits + memo.misses = (places LooksUp calls).ncard ∧
        memo.hits = (places start.Recalls calls).ncard ∧
        memo.faults = (places start.Collides calls).ncard) ∧
      memo.size = (start.written calls).ncard ∧
      memo.capacity = 2 ^ bits := by
  obtain ⟨start, after, run, spans⟩ :=
    (serves_withBits limit bits_le (Nat.le_refl entryBytes)).answers ⟨Nat.le_refl _, fits⟩ journal
  refine ⟨start, after, run, ?_⟩
  intro memo
  obtain ⟨_, _, _, rfl⟩ := eq_empty_of_run_withBits run
  have counted : Counted _ calls memo :=
    counted_serve rfl ⟨by simp [empty], by simp [empty], by simp [empty]⟩ sized
  obtain ⟨sameCapacity, sameIndex⟩ := @shape_serve _ calls sized
  refine ⟨?answers, counted.lookups, counted.hits, counted.faults, counted.of_few, ?size,
    sameCapacity.trans spans.1⟩
  case answers =>
    intro op operands length
    obtain ⟨key, made⟩ := exists_key_of_length length
    have bound := Nat.lt_of_lt_of_eq (index_lt _ key) spans.1
    refine ⟨_, bound, indexOf?_of_key made, ?_, memo.find? key, memo.count key,
      run_lookUp made memo, fun result => find?_serve_iff rfl sized made⟩
    rw [indexOf?_of_key made, sameIndex]
  case size =>
    rw [size_eq_ncard]
    congr 1
    ext entry
    exact mem_written_serve_iff rfl sized entry

/-- With one entry for everything, a disjunction is not mistaken for the conjunction of the
same operands. -/
theorem recalled_of_serve_one :
    let calls : List (MemoCall Ref) := [.remember .not [⟨2⟩] ⟨3⟩, .clear,
      .remember (.binary .and) [⟨2⟩, ⟨3⟩] ⟨4⟩, .lookUp (.binary .or) [⟨2⟩, ⟨3⟩],
      .lookUp (.binary .and) [⟨2⟩, ⟨3⟩]]
    0 ≤ maxMemoBits ∧ 2 ^ 0 * entryBytes ≤ 24 ∧ (∀ call ∈ calls, call.isSized = true) ∧
      ∃ start after, (withBits 24 0).run {} = .ok start after ∧
        start.LastRemembered calls 0 (.binary .and) [⟨2⟩, ⟨3⟩] ⟨4⟩ ∧
        (places start.Collides calls).ncard = 1 ∧ (places start.Recalls calls).ncard = 1 := by
  intro calls
  have sized : ∀ call ∈ calls, call.isSized = true := by decide
  obtain ⟨start, after, created, answers, _, _, _, exactly, _⟩ :=
    @recalled_of_serve 24 0 (by decide) (by decide) calls sized {}
  cases created
  have few : (places LooksUp calls).ncard < UInt64.size :=
    Nat.lt_of_le_of_lt (ncard_places_le _ calls) (by decide)
  obtain ⟨_, hits, faults⟩ := exactly few
  obtain ⟨entry, bound, _, _, found, after, run, holds⟩ := answers (.binary .and) [⟨2⟩, ⟨3⟩] rfl
  obtain rfl : entry = 0 := by simpa using bound
  refine ⟨by decide, by decide, sized, _, _, rfl, (holds ⟨4⟩).1 ?_, faults.symm, hits.symm⟩
  cases run
  decide

end Memo
end DecisionDiagram
