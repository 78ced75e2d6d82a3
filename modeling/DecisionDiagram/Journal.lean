import DecisionDiagram.Event

/-!
# Journals

A journal collects the events of a manager up to a chosen level.  It never
influences what the manager answers.
-/

namespace DecisionDiagram

/-- Events in the order in which they happened, the newest first. -/
structure Journal where
  /-- The least important level that is kept; a journal without one keeps nothing. -/
  threshold : Option Level := none
  newestFirst : List Event := []
  deriving Repr, Inhabited

namespace Journal

def admits (journal : Journal) (level : Level) : Bool :=
  match journal.threshold with
  | none => false
  | some threshold => level.rank ≤ threshold.rank

def record (journal : Journal) (event : Event) : Journal :=
  if journal.admits event.level then
    { journal with newestFirst := event :: journal.newestFirst }
  else journal

/-- The events kept, the oldest first. -/
def events (journal : Journal) : List Event :=
  journal.newestFirst.reverse

def emptied (journal : Journal) : Journal :=
  { journal with newestFirst := [] }

@[simp] theorem threshold_record (journal : Journal) (event : Event) :
    (journal.record event).threshold = journal.threshold := by
  unfold record
  split <;> rfl

theorem events_record (journal : Journal) (event : Event) :
    (journal.record event).events =
      journal.events ++ if journal.admits event.level then [event] else [] := by
  unfold record events
  split <;> simp

end Journal
end DecisionDiagram
