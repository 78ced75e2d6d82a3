import DecisionDiagram.Proofs.Canonicity
import DecisionDiagram.Proofs.Descent

/-!
# Descendants on any store

Raw contents may tie the nodes of a store into cycles, break the order of their tests or leave
branches that denote nothing.  Descendants are the same on all of them: the least set that has
the roots and, with every decision node, both of its branches.  Only an id of that set which
denotes nothing can make the listing fail.
-/

namespace DecisionDiagram

namespace Manager

variable {manager : Manager} {branches : Node → List Ref} {roots queue reached : List Ref}
variable {ref : Ref} {seen : Std.TreeSet UInt32} {stops : List Stop} {steps more : Nat}

/-! ## The least closed set -/

/-- What some roots lead to is the least set with the roots that is closed under branches. -/
theorem isLeast_reach (manager : Manager) (roots : List Ref) :
    IsLeast { parts : Set Ref | (∀ root ∈ roots, root ∈ parts) ∧ manager.table.Closed parts }
      (manager.reach roots) := by
  refine ⟨⟨fun root member => .root member, ?closed⟩, ?least⟩
  case closed =>
    intro ref reaches node content
    constructor
    · exact .branch reaches content (by simp [Node.lowFirst])
    · exact .branch reaches content (by simp [Node.lowFirst])
  case least =>
    rintro parts ⟨started, closed⟩ ref reaches
    induction reaches with
    | root member => exact started _ member
    | @branch ref child node _ content branch inside =>
        obtain ⟨lowMember, highMember⟩ := closed ref inside node content
        simp only [Node.lowFirst, List.mem_cons, List.not_mem_nil, or_false] at branch
        rcases branch with rfl | rfl
        · exact lowMember
        · exact highMember

/-! ## The end of a walk -/

/-- A walk that ends takes no notice of further steps. -/
theorem walkWithin_of_le (ends : manager.walkWithin branches steps queue seen ≠ .error .tooDeep)
    (further : steps ≤ more) :
    manager.walkWithin branches more queue seen = manager.walkWithin branches steps queue seen := by
  induction steps generalizing queue seen more with
  | zero =>
      cases queue with
      | nil => cases more <;> rfl
      | cons ref queue => exact absurd rfl ends
  | succ steps ih =>
      obtain ⟨more, rfl⟩ : ∃ less, more = less + 1 := ⟨more - 1, by omega⟩
      have further : steps ≤ more := Nat.le_of_succ_le_succ further
      cases queue with
      | nil => rfl
      | cons ref queue =>
          rcases manager.walkWithin_cases branches ref queue seen with
            ⟨_, step⟩ | ⟨_, _, step⟩ | ⟨_, step⟩
          · simp only [step] at ends ⊢
            exact ih ends further
          · simp only [step] at ends ⊢
            rw [ih _ further]
            intro deep
            rw [deep] at ends
            exact ends rfl
          · simp only [step]

/-- A walk ends when its steps are used up, however many more are granted. -/
theorem walkWithin_eq_walk (searchable : manager.table.Searchable)
    (two : ∀ node, (branches node).length = 2)
    (enough : roots.length + 2 * manager.table.size ≤ steps) :
    manager.walkWithin branches steps roots ∅ = manager.walk branches roots := by
  rw [searchable.counted] at enough
  refine walkWithin_of_le (fun deep => ?_) enough
  obtain ⟨ref, refused, _⟩ := exists_unknown_of_walk searchable two deep
  cases refused

/-! ## Failures -/

/-- Descendants that cannot be listed have an id among them that denotes nothing. -/
theorem exists_unknown_of_descendants {failure : Failure} (searchable : manager.table.Searchable)
    (refused : manager.descendants roots = .error failure) :
    ∃ ref ∈ manager.reach roots, ¬manager.table.Knows ref ∧
      failure = .violation (.unknownNode ref) := by
  unfold descendants at refused
  cases walked : manager.walk Node.lowFirst roots with
  | ok stops =>
      rw [walked] at refused
      cases refused
  | error cause =>
      rw [walked] at refused
      cases refused
      obtain ⟨ref, same, reaches, unknown⟩ :=
        exists_unknown_of_walk searchable (fun _ => rfl) walked
      exact ⟨ref, reaches, unknown, same⟩

/-- A walk that ends well has met nothing unknown. -/
theorem knows_of_walk (walked : manager.walk branches roots = .ok stops)
    (reaches : manager.Reaches branches roots ref) : manager.table.Knows ref := by
  have visits := visits_of_walkWithin walked
  exact visits.knows ref ((mem_visited_iff visits).2 reaches)

theorem exists_walk_iff (searchable : manager.table.Searchable)
    (two : ∀ node, (branches node).length = 2) :
    (∃ stops, manager.walk branches roots = .ok stops) ↔
      ∀ ref, manager.Reaches branches roots ref → manager.table.Knows ref := by
  constructor
  · rintro ⟨stops, walked⟩ ref reaches
    exact knows_of_walk walked reaches
  · intro known
    obtain ⟨stops, walked, _⟩ := exists_walk searchable two known
    exact ⟨stops, walked⟩

/-- Listed descendants all denote something. -/
theorem knows_of_descendants (listed : manager.descendants roots = .ok reached)
    (reaches : ref ∈ manager.reach roots) : manager.table.Knows ref := by
  obtain ⟨stops, walked, _⟩ := exists_walk_of_descendants listed
  exact knows_of_walk walked reaches

end Manager

/-- A full store whose nodes form two cycles against the order of their tests, and of which one
has a branch that denotes nothing. -/
def Session.tangled : Session :=
  fresh.run [.table (.insert 5 ⟨3⟩ ⟨4⟩), .table (.insert 1 ⟨2⟩ ⟨1⟩), .table (.insert 1 ⟨4⟩ ⟨4⟩),
    .table (.insert 7 ⟨2⟩ ⟨9⟩)]

theorem Session.reachable_tangled : tangled.toManager.Reachable fun _ => true :=
  (reachable_fresh fun _ => true).run _ (by decide)

/-- Whatever calls lead to a manager, raw contents included: the descendants of some roots are
the least set with the roots and with both branches of every decision node in it.  They are
listed, each once, if all of them denote something, and otherwise the listing fails at one that
does not.  The walk ends by itself: with more steps it is the same. -/
theorem descendants_of_reachable {permitted : Call Ref → Bool} {manager : Manager}
    (reachable : manager.Reachable permitted) (roots : List Ref) :
    ∃ closure : Set Ref,
      IsLeast { parts : Set Ref | (∀ root ∈ roots, root ∈ parts) ∧ manager.table.Closed parts }
        closure ∧
      ((∀ ref ∈ closure, manager.contains ref = true) →
        ∃ reached, manager.descendants roots = .ok reached ∧ reached.Nodup ∧
          { ref | ref ∈ reached } = closure) ∧
      ((∃ ref ∈ closure, manager.contains ref = false) →
        ∃ unknown ∈ closure, manager.contains unknown = false ∧
          manager.descendants roots = .error (.violation (.unknownNode unknown))) ∧
      ∀ steps, roots.length + 2 * manager.table.size ≤ steps →
        manager.walkWithin Node.lowFirst steps roots ∅ = manager.walk Node.lowFirst roots := by
  have searchable := reachable.searchable
  refine ⟨manager.reach roots, manager.isLeast_reach roots, ?known, ?unknown, ?ends⟩
  case known =>
    intro known
    obtain ⟨reached, listed, nodup, members⟩ := Manager.exists_descendants searchable
      fun ref reaches => Manager.contains_iff_knows.1 (known ref reaches)
    exact ⟨reached, listed, nodup, Set.ext members⟩
  case unknown =>
    rintro ⟨ref, reaches, denotesNothing⟩
    rw [Manager.contains_eq_false_iff] at denotesNothing
    cases listed : manager.descendants roots with
    | ok reached => exact absurd (Manager.knows_of_descendants listed reaches) denotesNothing
    | error failure =>
        obtain ⟨unknown, member, notKnown, rfl⟩ :=
          Manager.exists_unknown_of_descendants searchable listed
        exact ⟨unknown, member, Manager.contains_eq_false_iff.2 notKnown, rfl⟩
  case ends => exact fun steps enough => Manager.walkWithin_eq_walk searchable (fun _ => rfl) enough

/-- Everything on the cycles of the tangled store is known.  The remaining node leads to an id
that was never issued. -/
theorem descendants_of_tangled :
    Session.tangled.toManager.Reachable (fun _ => true) ∧
      (∃ reached, Session.tangled.descendants [⟨2⟩, ⟨2⟩] = .ok reached ∧
        IsLeast { parts : Set Ref | (∀ root ∈ [⟨2⟩, ⟨2⟩], root ∈ parts) ∧
          Session.tangled.table.Closed parts } { ref | ref ∈ reached }) ∧
      ∃ unknown, Session.tangled.contains unknown = false ∧
        Session.tangled.descendants [⟨5⟩, ⟨2⟩] = .error (.violation (.unknownNode unknown)) := by
  refine ⟨Session.reachable_tangled, ?cycles, ?dangling⟩
  case cycles =>
    let cycles : List Ref := [⟨1⟩, ⟨2⟩, ⟨3⟩, ⟨4⟩]
    obtain ⟨closure, least, known, _⟩ :=
      descendants_of_reachable Session.reachable_tangled [⟨2⟩, ⟨2⟩]
    have closed : Session.tangled.table.Closed { ref | ref ∈ cycles } := by
      have branches : ∀ ref ∈ cycles, ∀ node ∈ Session.tangled.table.node? ref,
          node.low ∈ cycles ∧ node.high ∈ cycles := by decide +kernel
      exact fun ref member node content => branches ref member node content
    have inside : closure ⊆ { ref | ref ∈ cycles } := least.2 ⟨by decide, closed⟩
    have everything : ∀ ref ∈ cycles, Session.tangled.contains ref = true := by decide +kernel
    obtain ⟨reached, listed, _, same⟩ := known fun ref member => everything ref (inside member)
    exact ⟨reached, listed, same ▸ least⟩
  case dangling =>
    obtain ⟨closure, ⟨⟨started, closed⟩, _⟩, _, refuses, _⟩ :=
      descendants_of_reachable Session.reachable_tangled [⟨5⟩, ⟨2⟩]
    have member : ⟨9⟩ ∈ closure :=
      (closed ⟨5⟩ (started ⟨5⟩ (by decide)) ⟨7, ⟨2⟩, ⟨9⟩⟩ (by decide +kernel)).2
    obtain ⟨unknown, _, denotesNothing, refused⟩ := refuses ⟨⟨9⟩, member, by decide +kernel⟩
    exact ⟨unknown, denotesNothing, refused⟩

end DecisionDiagram
