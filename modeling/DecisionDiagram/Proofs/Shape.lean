import DecisionDiagram.Model
import DecisionDiagram.Proofs.Closure

/-!
# Answers that only the shape decides

Most questions to a manager concern one id, and their answers depend only on the diagram
into which the id unfolds.  For each of them there is the same question to a diagram, which
knows nothing of ids, stores or counts that were kept, and both are answered alike.
-/

namespace DecisionDiagram

namespace Diagram

variable {diagram inner low high : Diagram} {var : Var}

/-- The diagrams that remain when a variable is false and when it is true, under the
conditions of `Manager.cofactors`. -/
def cofactors (diagram : Diagram) (var : Var) : Except Failure (Diagram × Diagram) :=
  match diagram with
  | .constant _ => .ok (diagram, diagram)
  | .decision tested low high =>
      if var < tested then .ok (diagram, diagram)
      else if tested < var then .error (.violation (.ordering var tested))
      else .ok (low, high)

/-- The branch of a test, which constants lack. -/
def branch (diagram : Diagram) (value : Bool) : Except Failure Diagram :=
  match diagram with
  | .constant always => .error (.violation (.unknownNode (.ofBool always)))
  | .decision _ low high => .ok (if value then high else low)

/-- The decisions on the way to the constant `true`, of which a variable is true unless that
leads to the constant `false`. -/
def path : Diagram → List (Var × Bool)
  | .constant _ => []
  | .decision var low high =>
      if high = .constant false then (var, false) :: low.path else (var, true) :: high.path

/-- The decisions of one model; the constant `false` has none. -/
def model? (diagram : Diagram) : Option (List (Var × Bool)) :=
  if diagram = .constant false then none else some diagram.path

/-- How many variables lie between a level and the first test of a branch below it. -/
def skippedIn (domain : List Var) (here : Nat) (branch : Diagram) : Except Failure Nat := do
  let below ← levelIn domain branch.top
  if here < below then pure (below - here - 1)
  else throw (.defect .levelsOutOfOrder)

/-- The number of models over the variables from the first test on. -/
def countIn (domain : List Var) : Diagram → Except Failure Nat
  | .constant value => pure (if value then 1 else 0)
  | .decision var low high => do
      let here ← levelIn domain var
      let lowSkipped ← low.skippedIn domain here
      let lowCount ← low.countIn domain
      let highSkipped ← high.skippedIn domain here
      let highCount ← high.countIn domain
      pure ((lowCount <<< lowSkipped) + (highCount <<< highSkipped))

def countModels (diagram : Diagram) (domain : Domain) : Except Failure Nat := do
  let count ← diagram.countIn domain.toList
  let top ← levelIn domain.toList diagram.top
  pure (count <<< top)

theorem subdiagrams_subset (member : inner ∈ diagram.subdiagrams) :
    inner.subdiagrams ⊆ diagram.subdiagrams := by
  induction diagram with
  | constant value =>
      obtain rfl : inner = .constant value := by simpa [subdiagrams] using member
      exact Finset.Subset.refl _
  | decision var low high lowIH highIH =>
      rcases mem_subdiagrams_decision.1 member with rfl | below | below
      · exact Finset.Subset.refl _
      · intro part found
        exact mem_subdiagrams_decision.2 (.inr (.inl (lowIH below found)))
      · intro part found
        exact mem_subdiagrams_decision.2 (.inr (.inr (highIH below found)))

end Diagram

/-- A constant has its own id, and no other id stands for it. -/
theorem UniqueTable.Represents.eq_ofBool_iff {table : UniqueTable} {ref : Ref} {diagram : Diagram}
    (represents : table.Represents ref diagram) (value : Bool) :
    ref = .ofBool value ↔ diagram = .constant value := by
  constructor
  · intro same
    exact represents.diagram_unique (represents_constant.2 same)
  · intro same
    rw [same] at represents
    exact represents_constant.1 represents

/-- A content in use makes its id no constant. -/
theorem UniqueTable.constant?_of_node? {table : UniqueTable} {ref : Ref} {node : Node}
    (content : table.node? ref = some node) : ref.constant? = none := by
  have notTerminal := not_isTerminal_of_node? content
  rw [Ref.isTerminal_eq_isSome_constant?] at notTerminal
  simpa using notTerminal

namespace Manager

open UniqueTable (represents_constant represents_decision)

variable {manager : Manager} {ref other : Ref} {diagram inner low high : Diagram} {var : Var}
variable {domain : List Var} {steps : Nat}

/-! ## Tests and branches -/

theorem var_of_represents (represents : manager.table.Represents ref diagram) :
    manager.var ref = .ok diagram.top := by
  rw [var_eq, represents.var?]

theorem node_ofBool (manager : Manager) (value : Bool) :
    manager.node (.ofBool value) = .error (.violation (.unknownNode (.ofBool value))) := by
  rw [node_eq, manager.table.node?_ofBool]

/-- Two questions that are answered with related answers or fail alike. -/
inductive Alike {α β : Type} (related : α → β → Prop) :
    Except Failure α → Except Failure β → Prop where
  | answered {left : α} {right : β} : related left right → Alike related (.ok left) (.ok right)
  | refused (failure : Failure) : Alike related (.error failure) (.error failure)

theorem node_of_represents (represents : manager.table.Represents ref (.decision var low high)) :
    ∃ node, manager.node ref = .ok node ∧ node.var = var ∧
      manager.table.Represents node.low low ∧ manager.table.Represents node.high high := by
  obtain ⟨node, content, rest⟩ := represents_decision.1 represents
  exact ⟨node, node_eq_ok_iff.2 content, rest⟩

theorem low_of_represents (represents : manager.table.Represents ref diagram) :
    Alike manager.table.Represents (manager.low ref) (diagram.branch false) := by
  cases diagram with
  | constant value =>
      rw [represents_constant.1 represents, Manager.low, node_ofBool]
      exact .refused _
  | decision var low high =>
      obtain ⟨node, content, _, lowRepresents, _⟩ := node_of_represents represents
      rw [Manager.low, content]
      exact .answered lowRepresents

theorem high_of_represents (represents : manager.table.Represents ref diagram) :
    Alike manager.table.Represents (manager.high ref) (diagram.branch true) := by
  cases diagram with
  | constant value =>
      rw [represents_constant.1 represents, Manager.high, node_ofBool]
      exact .refused _
  | decision var low high =>
      obtain ⟨node, content, _, _, highRepresents⟩ := node_of_represents represents
      rw [Manager.high, content]
      exact .answered highRepresents

theorem cofactors_of_represents (represents : manager.table.Represents ref diagram) (var : Var) :
    Alike (fun refs diagrams => manager.table.Represents refs.1 diagrams.1 ∧
        manager.table.Represents refs.2 diagrams.2)
      (manager.cofactors ref var) (diagram.cofactors var) := by
  cases diagram with
  | constant value =>
      obtain rfl := represents_constant.1 represents
      have terminal : (Ref.ofBool value).isTerminal = true := by cases value <;> rfl
      rw [Manager.cofactors, if_pos terminal, Diagram.cofactors]
      exact .answered ⟨represents, represents⟩
  | decision tested low high =>
      obtain ⟨node, content, rfl, lowRepresents, highRepresents⟩ := node_of_represents represents
      have notTerminal := UniqueTable.not_isTerminal_of_node? (node_eq_ok_iff.1 content)
      simp only [Manager.cofactors, notTerminal, Bool.false_eq_true, ↓reduceIte, content,
        Diagram.cofactors]
      split
      case isTrue => exact .answered ⟨represents, represents⟩
      case isFalse =>
        split
        case isTrue => exact .refused _
        case isFalse => exact .answered ⟨lowRepresents, highRepresents⟩

/-! ## Sizes -/

theorem Reaches.trans {branches : Node → List Ref} {roots : List Ref}
    (first : manager.Reaches branches roots ref) (second : manager.Reaches branches [ref] other) :
    manager.Reaches branches roots other := by
  induction second with
  | root member => rwa [List.mem_singleton.1 member]
  | branch _ content branch reached => exact .branch reached content branch

/-- What an id leads to unfolds into the subdiagrams of its diagram. -/
theorem reaches_iff (searchable : manager.table.Searchable)
    (represents : manager.table.Represents ref diagram) :
    manager.Reaches Node.lowFirst [ref] other ↔
      ∃ inner ∈ diagram.subdiagrams, manager.table.Represents other inner := by
  constructor
  · intro reaches
    induction reaches with
    | root member =>
        rw [List.mem_singleton.1 member]
        exact ⟨diagram, diagram.mem_subdiagrams_self, represents⟩
    | @branch ref child node _ content branch reached =>
        obtain ⟨inner, member, unfolds⟩ := reached
        cases inner with
        | constant value =>
            rw [represents_constant.1 unfolds, manager.table.node?_ofBool] at content
            cases content
        | decision var low high =>
            obtain ⟨same, sameContent, _, lowUnfolds, highUnfolds⟩ := represents_decision.1 unfolds
            rw [content] at sameContent
            cases sameContent
            have inside := Diagram.subdiagrams_subset member
            simp only [Node.lowFirst, List.mem_cons, List.not_mem_nil, or_false] at branch
            rcases branch with rfl | rfl
            · refine ⟨low, inside ?_, lowUnfolds⟩
              exact Diagram.mem_subdiagrams_decision.2 (.inr (.inl low.mem_subdiagrams_self))
            · refine ⟨high, inside ?_, highUnfolds⟩
              exact Diagram.mem_subdiagrams_decision.2 (.inr (.inr high.mem_subdiagrams_self))
  · intro unfolds
    obtain ⟨inner, member, unfolds⟩ := unfolds
    induction diagram generalizing ref with
    | constant value =>
        obtain rfl : inner = .constant value := by simpa [Diagram.subdiagrams] using member
        rw [searchable.ref_eq_of_represents unfolds represents]
        exact .root List.mem_cons_self
    | decision var low high lowIH highIH =>
        obtain ⟨node, content, _, lowRepresents, highRepresents⟩ :=
          represents_decision.1 represents
        have start : manager.Reaches Node.lowFirst [ref] ref := .root List.mem_cons_self
        rcases Diagram.mem_subdiagrams_decision.1 member with rfl | below | below
        · rw [searchable.ref_eq_of_represents unfolds represents]
          exact start
        · exact (start.branch content (by simp [Node.lowFirst])).trans (lowIH lowRepresents below)
        · exact (start.branch content (by simp [Node.lowFirst])).trans (highIH highRepresents below)

/-- The size of an id is the number of subdiagrams of its diagram. -/
theorem size_of_represents (wellFormed : manager.table.WellFormed)
    (represents : manager.table.Represents ref diagram) :
    manager.size ref = .ok diagram.subdiagrams.card := by
  have searchable := wellFormed.searchable
  have known : manager.reach [ref] ⊆ manager.table.known := by
    intro other reaches
    obtain ⟨inner, _, unfolds⟩ := (reaches_iff searchable represents).1 reaches
    exact unfolds.knows
  have image : manager.table.unfolding '' manager.reach [ref] = diagram.subdiagrams := by
    ext inner
    constructor
    · intro member
      obtain ⟨other, reaches, rfl⟩ := member
      obtain ⟨inner, found, unfolds⟩ := (reaches_iff searchable represents).1 reaches
      rwa [unfolds.unfolding_eq]
    · intro found
      obtain ⟨other, unfolds⟩ := represents.subdiagrams_subset found
      exact ⟨other, (reaches_iff searchable represents).2 ⟨inner, found, unfolds⟩,
        unfolds.unfolding_eq⟩
  rw [size_eq_ncard searchable known, ← (wellFormed.injOn_unfolding.mono known).ncard_image,
    image, Set.ncard_coe_finset]

/-! ## Models -/

theorem pathWithin_of_represents (represents : manager.table.Represents ref diagram)
    (canonical : diagram.Canonical) (satisfiable : diagram ≠ .constant false)
    (enough : diagram.height ≤ steps) : manager.pathWithin steps ref = .ok diagram.path := by
  induction canonical generalizing ref steps with
  | constant value =>
      cases value with
      | false => exact absurd rfl satisfiable
      | true =>
          unfold pathWithin
          exact if_pos (represents_constant.1 represents)
  | @decision var low high lowAfter highAfter different lowCanonical highCanonical lowIH highIH =>
      obtain ⟨node, content, rfl, lowRepresents, highRepresents⟩ :=
        represents_decision.1 represents
      rw [Diagram.height] at enough
      obtain ⟨steps, rfl⟩ : ∃ rest, steps = rest + 1 := ⟨steps - 1, by omega⟩
      have notTrue := (Ref.constant?_eq_none_iff.1 (UniqueTable.constant?_of_node? content)).2
      have falseIff : node.high = .falseRef ↔ high = .constant false :=
        highRepresents.eq_ofBool_iff false
      simp only [pathWithin, notTrue, ↓reduceIte, Manager.node, content, Diagram.path, falseIff]
      split
      case isTrue falseBranch =>
        rw [lowIH lowRepresents (fun same => different (same.trans falseBranch.symm)) (by omega)]
        rfl
      case isFalse satisfiable =>
        rw [highIH highRepresents satisfiable (by omega)]
        rfl

theorem model?_of_represents (wellFormed : manager.table.WellFormed)
    (represents : manager.table.Represents ref diagram) :
    manager.model? ref = .ok diagram.model? := by
  have falseIff : ref = .falseRef ↔ diagram = .constant false := represents.eq_ofBool_iff false
  simp only [Manager.model?, Diagram.model?, falseIff]
  split
  case isTrue => rfl
  case isFalse satisfiable =>
    have canonical := wellFormed.canonical represents
    have limit : terminalVar.toNat ≤ nestingLimit := by decide
    have short := Nat.le_trans (Nat.le_add_right _ _) canonical.height_add_top_le
    rw [pathWithin_of_represents represents canonical satisfiable (Nat.le_trans short limit)]
    rfl

/-! ## Counts -/

theorem skipped_of_represents (represents : manager.table.Represents ref diagram)
    (domain : List Var) (here : Nat) :
    manager.skipped domain here ref = diagram.skippedIn domain here := by
  rw [skipped, var_of_represents represents]
  rfl

/-- Counts that are kept are right: an id has the count of its diagram. -/
def Kept (manager : Manager) (domain : List Var) (counts : Counts) : Prop :=
  ∀ ref count, counts[ref.id]? = some count →
    ∀ diagram, manager.table.Represents ref diagram → diagram.countIn domain = .ok count

/-- On right counts the action answers as it should, and it leaves right counts behind. -/
def Counting {α : Type} (manager : Manager) (domain : List Var) (action : CountM α)
    (answer : Except Failure α) : Prop :=
  ∀ counts, manager.Kept domain counts → ∃ after, manager.Kept domain after ∧
    action.run counts = match answer with
      | .ok value => .ok value after
      | .error failure => .error failure after

section Counting

variable {α β : Type} {action : CountM α} {next : α → CountM β} {answer : Except Failure α}

theorem Counting.ofExcept (answer : Except Failure α) :
    manager.Counting domain (MonadExcept.ofExcept answer) answer := by
  intro counts kept
  refine ⟨counts, kept, ?_⟩
  cases answer <;> rfl

theorem Counting.bind {rest : α → Except Failure β}
    (first : manager.Counting domain action answer)
    (second : ∀ value, answer = .ok value → manager.Counting domain (next value) (rest value)) :
    manager.Counting domain (action >>= next) (answer >>= rest) := by
  intro counts kept
  obtain ⟨middle, middleKept, run⟩ := first counts kept
  cases answer with
  | ok value =>
      obtain ⟨after, afterKept, again⟩ := second value rfl middle middleKept
      exact ⟨after, afterKept, (run_bind_of_ok run).trans again⟩
  | error failure => exact ⟨middle, middleKept, run_bind_of_error run⟩

end Counting

theorem Kept.insert {counts : Counts} {count : Nat} (kept : manager.Kept domain counts)
    (represents : manager.table.Represents ref diagram)
    (counted : diagram.countIn domain = .ok count) :
    manager.Kept domain (counts.insert ref.id count) := by
  intro other found stored unfolded unfolds
  simp only [Std.TreeMap.getElem?_insert, Std.LawfulEqCmp.compare_eq_iff_eq] at stored
  split at stored
  case isTrue same =>
    cases stored
    have sameRef : ref = other := by
      cases ref
      cases other
      cases same
      rfl
    rw [← sameRef] at unfolds
    rw [unfolds.diagram_unique represents, counted]
  case isFalse => exact kept other found stored unfolded unfolds

/-- A count that was worked out may be kept. -/
theorem Counting.conclude {count : Nat} (represents : manager.table.Represents ref diagram)
    (counted : diagram.countIn domain = .ok count) :
    manager.Counting domain (do
      modify fun counts : Counts => counts.insert ref.id count
      pure count) (.ok count) := by
  intro counts kept
  exact ⟨counts.insert ref.id count, kept.insert represents counted, rfl⟩

/-- A count that was kept is found, without looking at the diagram. -/
theorem Counting.recall {rest : CountM Nat} {answer : Except Failure Nat}
    (represents : manager.table.Represents ref diagram)
    (counted : diagram.countIn domain = answer) (anew : manager.Counting domain rest answer) :
    manager.Counting domain (do
      match (← get)[ref.id]? with
      | some count => pure count
      | none => rest) answer := by
  intro counts kept
  cases found : counts[ref.id]? with
  | some count =>
      refine ⟨counts, kept, ?_⟩
      rw [← counted, kept ref count found diagram represents]
      simp only [EStateM.run_bind, EStateM.run_get, found]
      rfl
  | none =>
      obtain ⟨after, afterKept, run⟩ := anew counts kept
      refine ⟨after, afterKept, ?_⟩
      simp only [EStateM.run_bind, EStateM.run_get, found]
      exact run

/-- Levels that are enough for a test are not used up. -/
theorem exists_level (enough : nestingLimit ≤ steps + var.toNat) : ∃ rest, steps = rest + 1 := by
  have bound := var.toNat_lt
  simp only [nestingLimit] at enough
  exact ⟨steps - 1, by omega⟩

/-- Counting with counts kept amounts to counting anew. -/
theorem Counting.countWithin (represents : manager.table.Represents ref diagram)
    (canonical : diagram.Canonical) (enough : nestingLimit ≤ steps + diagram.top.toNat) :
    manager.Counting domain (manager.countWithin domain steps ref) (diagram.countIn domain) := by
  induction canonical generalizing ref steps with
  | constant value =>
      obtain ⟨steps, rfl⟩ := exists_level enough
      simp only [Manager.countWithin, represents_constant.1 represents, Ref.constant?_ofBool]
      exact .ofExcept (.ok _)
  | @decision var low high lowAfter highAfter different lowCanonical highCanonical lowIH highIH =>
      obtain ⟨node, content, rfl, lowRepresents, highRepresents⟩ :=
        represents_decision.1 represents
      have lowNext := UInt32.lt_iff_toNat_lt.1 lowAfter
      have highNext := UInt32.lt_iff_toNat_lt.1 highAfter
      rw [Diagram.top_decision] at enough
      obtain ⟨steps, rfl⟩ := exists_level enough
      simp only [Manager.countWithin, UniqueTable.constant?_of_node? content]
      refine .recall represents rfl ?_
      have found : manager.node ref = .ok node := by rw [node_eq, content]
      simp only [found, MonadExcept.ofExcept, pure_bind, skipped_of_represents lowRepresents,
        skipped_of_represents highRepresents]
      rw [Diagram.countIn]
      refine .bind (.ofExcept _) fun here hereFound => ?_
      refine .bind (.ofExcept _) fun lowSkipped lowSkippedFound => ?_
      refine .bind (lowIH lowRepresents (by omega)) fun lowCount lowCounted => ?_
      refine .bind (.ofExcept _) fun highSkipped highSkippedFound => ?_
      refine .bind (highIH highRepresents (by omega)) fun highCount highCounted => ?_
      refine .conclude represents ?_
      simp only [Diagram.countIn, Bind.bind, Except.bind, hereFound, lowSkippedFound, lowCounted,
        highSkippedFound, highCounted]
      rfl

theorem countModels_of_represents (wellFormed : manager.table.WellFormed)
    (represents : manager.table.Represents ref diagram) (domain : Domain) :
    manager.countModels ref domain = diagram.countModels domain := by
  have nothing : manager.Kept domain.toList (∅ : Counts) := by
    intro other count stored
    simp at stored
  obtain ⟨after, _, run⟩ := Counting.countWithin represents (wellFormed.canonical represents)
    (Nat.le_add_right nestingLimit diagram.top.toNat) ∅ nothing
  simp only [Manager.countModels, Diagram.countModels, run, var_of_represents represents]
  cases diagram.countIn domain.toList <;> rfl

end Manager
end DecisionDiagram
