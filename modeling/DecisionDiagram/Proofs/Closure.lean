import DecisionDiagram.Proofs.Holding
import DecisionDiagram.Walk

/-!
# What walks visit

A walk that ends well has visited exactly what its roots lead to, each function once; a
walk that fails has met an id that denotes nothing.  The stored nodes may be anything:
the steps are enough because every stored node is unfolded at most once.
-/

namespace DecisionDiagram
namespace Manager

variable {manager : Manager} {branches : Node → List Ref} {roots queue more : List Ref}
variable {ref child : Ref} {node : Node} {seen : Std.TreeSet UInt32} {stops : List Stop}
variable {steps : Nat} {failure : Failure}

/-- The function can be reached from some roots by following branches. -/
inductive Reaches (manager : Manager) (branches : Node → List Ref) (roots : List Ref) :
    Ref → Prop where
  | root {ref : Ref} : ref ∈ roots → manager.Reaches branches roots ref
  | branch {ref child : Ref} {node : Node} :
      manager.Reaches branches roots ref → manager.table.node? ref = some node →
      child ∈ branches node → manager.Reaches branches roots child

/-- The branches of the content of an id, if it has one. -/
def onward (manager : Manager) (branches : Node → List Ref) (ref : Ref) : List Ref :=
  ((manager.table.node? ref).map branches).getD []

theorem mem_onward :
    child ∈ manager.onward branches ref ↔
      ∃ node, manager.table.node? ref = some node ∧ child ∈ branches node := by
  cases content : manager.table.node? ref <;> simp [onward, content]

/-- What is reached from a function and a queue is the function, or is reached from the
queue and the branches of the function. -/
theorem Reaches.of_onward
    (reaches : manager.Reaches branches (queue ++ manager.onward branches ref) child) :
    manager.Reaches branches (ref :: queue) child := by
  induction reaches with
  | root member =>
      rcases List.mem_append.1 member with waiting | onward
      · exact .root (List.mem_cons_of_mem ref waiting)
      · obtain ⟨node, content, branch⟩ := mem_onward.1 onward
        exact .branch (.root List.mem_cons_self) content branch
  | branch _ content branch reached => exact .branch reached content branch

theorem Reaches.mono (subset : queue ⊆ more) (reaches : manager.Reaches branches queue ref) :
    manager.Reaches branches more ref := by
  induction reaches with
  | root member => exact .root (subset member)
  | branch _ content branch reached => exact .branch reached content branch

/-! ## Visiting -/

/-- The functions at which a walk stopped. -/
def visited (stops : List Stop) : List Ref :=
  stops.map (·.ref)

/-- The stops are what remains to be visited of a queue, after some ids were seen. -/
structure Visits (manager : Manager) (branches : Node → List Ref) (queue : List Ref)
    (seen : Std.TreeSet UInt32) (stops : List Stop) : Prop where
  nodup : (visited stops).Nodup
  fresh : ∀ ref ∈ visited stops, ref.id ∉ seen
  reached : ∀ ref ∈ visited stops, manager.Reaches branches queue ref
  covers : ∀ ref ∈ queue, ref.id ∈ seen ∨ ref ∈ visited stops
  closed : ∀ ref ∈ visited stops, ∀ child ∈ manager.onward branches ref,
    child.id ∈ seen ∨ child ∈ visited stops
  knows : ∀ ref ∈ visited stops, manager.table.Knows ref
  contents : ∀ stop ∈ stops, stop.node? = manager.table.node? stop.ref

theorem visits_nil (manager : Manager) (branches : Node → List Ref)
    (seen : Std.TreeSet UInt32) : manager.Visits branches [] seen [] := by
  constructor <;> simp [visited]

/-- A function that was seen is left out. -/
theorem Visits.skip (before : ref.id ∈ seen) (visits : manager.Visits branches queue seen stops) :
    manager.Visits branches (ref :: queue) seen stops where
  nodup := visits.nodup
  fresh := visits.fresh
  reached := fun ref member => (visits.reached ref member).mono (List.subset_cons_self _ _)
  covers := by
    intro other member
    rcases List.mem_cons.1 member with rfl | waiting
    · exact .inl before
    · exact visits.covers other waiting
  closed := visits.closed
  knows := visits.knows
  contents := visits.contents

theorem mem_insert_seen : child.id ∈ seen.insert ref.id ↔ child = ref ∨ child.id ∈ seen := by
  cases child
  cases ref
  rw [Std.TreeSet.mem_insert, Std.LawfulEqCmp.compare_eq_iff_eq, Ref.mk.injEq, eq_comm]

/-- A function that was not seen is visited, and its branches join the queue. -/
theorem Visits.visit (new : ref.id ∉ seen) (known : manager.table.Knows ref)
    (visits : manager.Visits branches (queue ++ manager.onward branches ref)
      (seen.insert ref.id) stops) :
    manager.Visits branches (ref :: queue) seen (⟨ref, manager.table.node? ref⟩ :: stops) := by
  have settled : ∀ other : Ref, other.id ∈ seen.insert ref.id ∨ other ∈ visited stops →
      other.id ∈ seen ∨ other ∈ ref :: visited stops := by
    intro other found
    rcases found with before | later
    · rcases mem_insert_seen.1 before with same | earlier
      · exact .inr (List.mem_cons.2 (.inl same))
      · exact .inl earlier
    · exact .inr (List.mem_cons_of_mem ref later)
  have notLater : ref ∉ visited stops := fun later =>
    visits.fresh ref later (mem_insert_seen.2 (.inl rfl))
  constructor
  case nodup => exact List.nodup_cons.2 ⟨notLater, visits.nodup⟩
  case fresh =>
    intro other member
    rcases List.mem_cons.1 member with rfl | later
    · exact new
    · exact fun before => visits.fresh other later (mem_insert_seen.2 (.inr before))
  case reached =>
    intro other member
    rcases List.mem_cons.1 member with rfl | later
    · exact .root List.mem_cons_self
    · exact (visits.reached other later).of_onward
  case covers =>
    intro other member
    rcases List.mem_cons.1 member with rfl | waiting
    · exact .inr List.mem_cons_self
    · exact settled other (visits.covers other (List.mem_append_left _ waiting))
  case closed =>
    intro other member child branch
    rcases List.mem_cons.1 member with rfl | later
    · exact settled child (visits.covers child (List.mem_append_right _ branch))
    · exact settled child (visits.closed other later child branch)
  case knows =>
    intro other member
    rcases List.mem_cons.1 member with rfl | later
    · exact known
    · exact visits.knows other later
  case contents =>
    intro stop member
    rcases List.mem_cons.1 member with rfl | later
    · rfl
    · exact visits.contents stop later

/-- What a step of a walk does, however many are left: it leaves out what was seen, visits what
is known, and fails at what is not. -/
theorem walkWithin_cases (manager : Manager) (branches : Node → List Ref) (ref : Ref)
    (queue : List Ref) (seen : Std.TreeSet UInt32) :
    (ref.id ∈ seen ∧ ∀ steps, manager.walkWithin branches (steps + 1) (ref :: queue) seen =
      manager.walkWithin branches steps queue seen) ∨
    (ref.id ∉ seen ∧ manager.table.Knows ref ∧
      ∀ steps, manager.walkWithin branches (steps + 1) (ref :: queue) seen =
        (manager.walkWithin branches steps (queue ++ manager.onward branches ref)
          (seen.insert ref.id)).map (⟨ref, manager.table.node? ref⟩ :: ·)) ∨
    (¬manager.table.Knows ref ∧
      ∀ steps, manager.walkWithin branches (steps + 1) (ref :: queue) seen =
        .error (.violation (.unknownNode ref))) := by
  rw [← Std.TreeSet.contains_iff_mem]
  cases before : seen.contains ref.id with
  | true => exact .inl ⟨rfl, by simp [walkWithin, before]⟩
  | false =>
      cases content : manager.table.node? ref with
      | some node =>
          have notTerminal := UniqueTable.not_isTerminal_of_node? content
          exact .inr (.inl ⟨nofun, .inr ⟨node, content⟩, by
            simp [walkWithin, before, notTerminal, onward, Manager.node, content]⟩)
      | none =>
          cases terminal : ref.isTerminal with
          | true =>
              exact .inr (.inl ⟨nofun, .inl terminal, by
                simp [walkWithin, before, terminal, onward, content]⟩)
          | false =>
              refine .inr (.inr ⟨?_, by
                simp [walkWithin, before, terminal, Manager.node, content]⟩)
              simp [UniqueTable.Knows, terminal, content]

/-! ## Whole walks -/

/-- What holds of an empty queue, and is kept by leaving out what was seen and by visiting what
is known, holds of every walk that ends well. -/
theorem walkWithin_induction {motive : List Ref → Std.TreeSet UInt32 → List Stop → Prop}
    (nil : ∀ seen, motive [] seen [])
    (skip : ∀ {ref queue seen stops}, ref.id ∈ seen → motive queue seen stops →
      motive (ref :: queue) seen stops)
    (visit : ∀ {ref queue seen stops}, ref.id ∉ seen → manager.table.Knows ref →
      motive (queue ++ manager.onward branches ref) (seen.insert ref.id) stops →
      motive (ref :: queue) seen (⟨ref, manager.table.node? ref⟩ :: stops))
    (walked : manager.walkWithin branches steps queue seen = .ok stops) :
    motive queue seen stops := by
  induction steps generalizing queue seen stops with
  | zero =>
      cases queue with
      | nil =>
          cases walked
          exact nil seen
      | cons ref queue => cases walked
  | succ steps ih =>
      cases queue with
      | nil =>
          cases walked
          exact nil seen
      | cons ref queue =>
          rcases manager.walkWithin_cases branches ref queue seen with
            ⟨before, step⟩ | ⟨new, known, step⟩ | ⟨_, step⟩
          · rw [step] at walked
            exact skip before (ih walked)
          · rw [step] at walked
            cases rest : manager.walkWithin branches steps
                (queue ++ manager.onward branches ref) (seen.insert ref.id) with
            | ok later =>
                rw [rest] at walked
                cases walked
                exact visit new known (ih rest)
            | error failure =>
                rw [rest] at walked
                cases walked
          · rw [step] at walked
            cases walked

theorem visits_of_walkWithin
    (walked : manager.walkWithin branches steps queue seen = .ok stops) :
    manager.Visits branches queue seen stops :=
  walkWithin_induction (manager.visits_nil branches) .skip .visit walked

/-- The ids in use that were not seen yet. -/
def unseen (manager : Manager) (seen : Std.TreeSet UInt32) : Set Ref :=
  { ref | ref ∈ manager.table.published ∧ ref.id ∉ seen }

theorem unseen_insert : manager.unseen (seen.insert ref.id) = manager.unseen seen \ {ref} := by
  ext other
  simp only [unseen, Set.mem_ofPred_eq, Set.mem_sdiff, Set.mem_singleton_iff, mem_insert_seen]
  tauto

/-- A visit pays for the branches that join the queue. -/
theorem length_onward_add_le (searchable : manager.table.Searchable)
    (two : ∀ node, (branches node).length = 2) (new : ref.id ∉ seen) :
    (manager.onward branches ref).length + 2 * (manager.unseen (seen.insert ref.id)).ncard ≤
      2 * (manager.unseen seen).ncard := by
  have finite : (manager.unseen seen).Finite :=
    searchable.finite_published.subset fun _ member => member.1
  rw [unseen_insert]
  cases content : manager.table.node? ref with
  | none =>
      have fewer := Set.ncard_le_ncard (Set.sdiff_subset : manager.unseen seen \ {ref} ⊆ _) finite
      simp only [onward, content, Option.map_none, Option.getD_none, List.length_nil]
      omega
  | some node =>
      have member : ref ∈ manager.unseen seen := ⟨by simp [UniqueTable.published, content], new⟩
      have one := Set.ncard_sdiff_singleton_add_one member finite
      simp only [onward, content, Option.map_some, Option.getD_some, two]
      omega

/-- With enough steps a walk fails only at an id that denotes nothing. -/
theorem exists_unknown_of_walkWithin (searchable : manager.table.Searchable)
    (two : ∀ node, (branches node).length = 2)
    (enough : queue.length + 2 * (manager.unseen seen).ncard ≤ steps)
    (walked : manager.walkWithin branches steps queue seen = .error failure) :
    ∃ ref, failure = .violation (.unknownNode ref) ∧ manager.Reaches branches queue ref ∧
      ¬manager.table.Knows ref := by
  induction steps generalizing queue seen with
  | zero =>
      cases queue with
      | nil => cases walked
      | cons ref queue => simp at enough
  | succ steps ih =>
      cases queue with
      | nil => cases walked
      | cons ref queue =>
          rw [List.length_cons] at enough
          rcases manager.walkWithin_cases branches ref queue seen with
            ⟨_, step⟩ | ⟨new, _, step⟩ | ⟨unknown, step⟩
          · rw [step] at walked
            obtain ⟨culprit, refused, reaches, unknown⟩ := ih (by omega) walked
            exact ⟨culprit, refused, reaches.mono (List.subset_cons_self _ _), unknown⟩
          · rw [step] at walked
            have paid := length_onward_add_le searchable two new
            cases rest : manager.walkWithin branches steps
                (queue ++ manager.onward branches ref) (seen.insert ref.id) with
            | ok later =>
                rw [rest] at walked
                cases walked
            | error cause =>
                rw [rest] at walked
                cases walked
                have left : (queue ++ manager.onward branches ref).length +
                    2 * (manager.unseen (seen.insert ref.id)).ncard ≤ steps := by
                  rw [List.length_append]
                  omega
                obtain ⟨culprit, refused, reaches, unknown⟩ := ih left rest
                exact ⟨culprit, refused, reaches.of_onward, unknown⟩
          · rw [step] at walked
            cases walked
            exact ⟨ref, rfl, .root List.mem_cons_self, unknown⟩

/-- A walk that ends well visits exactly what its roots lead to. -/
theorem mem_visited_iff (visits : manager.Visits branches roots ∅ stops) :
    ref ∈ visited stops ↔ manager.Reaches branches roots ref := by
  have settled : ∀ {other : Ref}, other.id ∈ (∅ : Std.TreeSet UInt32) ∨ other ∈ visited stops →
      other ∈ visited stops := by
    intro other found
    exact found.resolve_left (by simp)
  constructor
  · exact visits.reached ref
  · intro reaches
    induction reaches with
    | root member => exact settled (visits.covers _ member)
    | branch _ content branch reached =>
        exact settled (visits.closed _ reached _ (mem_onward.2 ⟨_, content, branch⟩))

/-- The steps of a walk are enough, so that it fails only at an id that denotes nothing. -/
theorem exists_unknown_of_walk (searchable : manager.table.Searchable)
    (two : ∀ node, (branches node).length = 2)
    (walked : manager.walk branches roots = .error failure) :
    ∃ ref, failure = .violation (.unknownNode ref) ∧ manager.Reaches branches roots ref ∧
      ¬manager.table.Knows ref := by
  have paid : (manager.unseen ∅).ncard = manager.table.slots.size := by
    rw [← searchable.counted, ← searchable.ncard_published]
    congr 1
    ext ref
    simp [unseen]
  exact exists_unknown_of_walkWithin searchable two (by rw [paid]) walked

/-- A walk ends well if its roots lead to nothing unknown. -/
theorem exists_walk (searchable : manager.table.Searchable)
    (two : ∀ node, (branches node).length = 2)
    (known : ∀ ref, manager.Reaches branches roots ref → manager.table.Knows ref) :
    ∃ stops, manager.walk branches roots = .ok stops ∧ manager.Visits branches roots ∅ stops := by
  cases walked : manager.walk branches roots with
  | ok stops => exact ⟨stops, rfl, visits_of_walkWithin walked⟩
  | error failure =>
      obtain ⟨culprit, _, reaches, unknown⟩ := exists_unknown_of_walk searchable two walked
      exact absurd (known culprit reaches) unknown

/-! ## Descendants -/

/-- Descendants are what a walk visits, in ascending order. -/
theorem exists_walk_of_descendants {reached : List Ref}
    (listed : manager.descendants roots = .ok reached) :
    ∃ stops, manager.walk Node.lowFirst roots = .ok stops ∧
      reached = (visited stops).mergeSort fun left right => left.id ≤ right.id := by
  unfold descendants at listed
  cases walked : manager.walk Node.lowFirst roots with
  | error failure => simp [walked, Except.map] at listed
  | ok stops =>
      rw [walked] at listed
      cases listed
      exact ⟨stops, rfl, rfl⟩

theorem mem_descendants_iff {reached : List Ref}
    (listed : manager.descendants roots = .ok reached) :
    ref ∈ reached ↔ manager.Reaches Node.lowFirst roots ref := by
  obtain ⟨stops, walked, rfl⟩ := exists_walk_of_descendants listed
  rw [List.mem_mergeSort, mem_visited_iff (visits_of_walkWithin walked)]

theorem pairwise_descendants {reached : List Ref}
    (listed : manager.descendants roots = .ok reached) :
    reached.Pairwise fun first second => first.id ≤ second.id := by
  obtain ⟨stops, _, rfl⟩ := exists_walk_of_descendants listed
  have sorted := @List.pairwise_mergeSort Ref (fun first second => first.id ≤ second.id)
    (fun _ _ _ => by simpa using UInt32.le_trans)
    (fun first second => by simpa using UInt32.le_total first.id second.id) (visited stops)
  simpa using sorted

/-- Descendants are listed in ascending order, so that they have one list only. -/
theorem descendants_unique {left right : Manager}
    {leftRoots rightRoots leftReached rightReached : List Ref}
    (leftListed : left.descendants leftRoots = .ok leftReached)
    (rightListed : right.descendants rightRoots = .ok rightReached)
    (permuted : leftReached.Perm rightReached) : leftReached = rightReached := by
  refine permuted.eq_of_pairwise ?_ (pairwise_descendants leftListed)
    (pairwise_descendants rightListed)
  intro first second _ _ before after
  cases first
  cases second
  exact congrArg Ref.mk (UInt32.le_antisymm before after)

/-- If some roots lead to nothing unknown, everything that they lead to is listed once. -/
theorem exists_descendants (searchable : manager.table.Searchable)
    (known : ∀ ref, manager.Reaches Node.lowFirst roots ref → manager.table.Knows ref) :
    ∃ refs, manager.descendants roots = .ok refs ∧ refs.Nodup ∧
      ∀ ref, ref ∈ refs ↔ manager.Reaches Node.lowFirst roots ref := by
  obtain ⟨stops, walked, visits⟩ := exists_walk searchable (fun _ => rfl) known
  refine ⟨(visited stops).mergeSort fun left right => left.id ≤ right.id, ?_, ?_, ?_⟩
  · rw [descendants, walked]
    rfl
  · exact (List.mergeSort_perm _ _).nodup_iff.2 visits.nodup
  · intro ref
    rw [List.mem_mergeSort, mem_visited_iff visits]

/-- All that some functions lead to. -/
def reach (manager : Manager) (roots : List Ref) : Set Ref :=
  { ref | manager.Reaches Node.lowFirst roots ref }

/-- The size of a function is the number of functions it leads to, if all of them are
known. -/
theorem size_eq_ncard (searchable : manager.table.Searchable)
    (known : manager.reach [ref] ⊆ manager.table.known) :
    manager.size ref = .ok (manager.reach [ref]).ncard := by
  obtain ⟨refs, listed, nodup, members⟩ :=
    exists_descendants searchable fun _ reaches => known reaches
  have same : manager.reach [ref] = refs.toFinset := by
    ext other
    simp [reach, members]
  rw [same, Set.ncard_coe_finset, List.toFinset_card_of_nodup nodup, size, listed]
  rfl

end Manager
end DecisionDiagram
