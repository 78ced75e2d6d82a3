import Mathlib.Data.List.Induction
import Mathlib.Data.Set.Card

/-!
# Places of a series

What happened in a series of requests is told by its places: those at which a request,
made after the requests before it, had some property.  A series grows at its end, where it
gains one place or none.
-/

namespace DecisionDiagram

variable {α : Type} {series : List α} {item : α} {property : List α → α → Prop}

/-- The places of a series whose item has a property, given the items before it. -/
def places (property : List α → α → Prop) (series : List α) : Set Nat :=
  { place | ∃ item, series[place]? = some item ∧ property (series.take place) item }

theorem lt_length_of_mem_places {place : Nat} (member : place ∈ places property series) :
    place < series.length := by
  obtain ⟨item, found, _⟩ := member
  exact (List.getElem?_eq_some_iff.1 found).1

@[simp] theorem places_nil : places property [] = ∅ := by
  ext place
  simp [places]

theorem mem_places_snoc {place : Nat} :
    place ∈ places property (series ++ [item]) ↔
      place ∈ places property series ∨ place = series.length ∧ property series item := by
  by_cases early : place < series.length
  · have notLast : place ≠ series.length := Nat.ne_of_lt early
    simp only [places, Set.mem_ofPred_eq, List.getElem?_append_left early,
      List.take_append_of_le_length (Nat.le_of_lt early), notLast, false_and, or_false]
  · have notBefore : place ∉ places property series := mt lt_length_of_mem_places early
    simp only [notBefore, false_or]
    constructor
    · intro member
      have last : place = series.length := by
        have bound := lt_length_of_mem_places member
        rw [List.length_append, List.length_singleton] at bound
        omega
      obtain ⟨found, atEnd, holds⟩ := member
      subst last
      rw [List.getElem?_concat_length, Option.some.injEq] at atEnd
      rw [List.take_left, ← atEnd] at holds
      exact ⟨rfl, holds⟩
    · rintro ⟨rfl, holds⟩
      exact ⟨item, List.getElem?_concat_length, by rwa [List.take_left]⟩

theorem finite_places (property : List α → α → Prop) (series : List α) :
    (places property series).Finite :=
  (Set.finite_lt_nat series.length).subset fun _ => lt_length_of_mem_places

theorem ncard_places_le (property : List α → α → Prop) (series : List α) :
    (places property series).ncard ≤ series.length := by
  have within : places property series ⊆ (Finset.range series.length : Set Nat) :=
    fun _ member => Finset.mem_coe.2 (Finset.mem_range.2 (lt_length_of_mem_places member))
  have bound := Set.ncard_le_ncard within (Finset.finite_toSet _)
  rwa [Set.ncard_coe_finset, Finset.card_range] at bound

/-- A property that implies another one has no more places. -/
theorem ncard_places_mono {weaker : List α → α → Prop}
    (implies : ∀ {before item}, property before item → weaker before item) (series : List α) :
    (places property series).ncard ≤ (places weaker series).ncard := by
  refine Set.ncard_le_ncard ?_ (finite_places weaker series)
  intro place member
  obtain ⟨item, found, holds⟩ := member
  exact ⟨item, found, implies holds⟩

/-- A further item with the property has a further place. -/
theorem ncard_places_snoc_of (holds : property series item) :
    (places property (series ++ [item])).ncard = (places property series).ncard + 1 := by
  have grown : places property (series ++ [item]) =
      insert series.length (places property series) := by
    ext place
    rw [mem_places_snoc, Set.mem_insert_iff, or_comm]
    simp [holds]
  have new : series.length ∉ places property series :=
    fun member => Nat.lt_irrefl _ (lt_length_of_mem_places member)
  rw [grown, Set.ncard_insert_of_notMem new (finite_places property series)]

/-- A further item without the property has none. -/
theorem places_snoc_of_not (fails : ¬property series item) :
    places property (series ++ [item]) = places property series := by
  ext place
  rw [mem_places_snoc]
  simp [fails]

theorem nonempty_places_snoc :
    (places property (series ++ [item])).Nonempty ↔
      (places property series).Nonempty ∨ property series item := by
  constructor
  · rintro ⟨place, member⟩
    rcases mem_places_snoc.1 member with before | ⟨_, holds⟩
    · exact .inl ⟨place, before⟩
    · exact .inr holds
  · rintro (⟨place, before⟩ | holds)
    · exact ⟨place, mem_places_snoc.2 (.inl before)⟩
    · exact ⟨series.length, mem_places_snoc.2 (.inr ⟨rfl, holds⟩)⟩

/-- An item of a series with one more item is that item, or one of those before. -/
theorem snoc_eq_append_cons_iff {before rest : List α} {found : α} :
    series ++ [item] = before ++ found :: rest ↔
      (series = before ∧ item = found ∧ rest = []) ∨
        ∃ shorter, rest = shorter ++ [item] ∧ series = before ++ found :: shorter := by
  constructor
  · intro split
    rcases List.eq_nil_or_concat rest with rfl | ⟨shorter, last, rfl⟩
    · obtain ⟨same, sameItem⟩ := List.append_inj' split rfl
      exact .inl ⟨same, List.singleton_inj.1 sameItem, rfl⟩
    · rw [List.concat_eq_append, ← List.cons_append, ← List.append_assoc] at split
      obtain ⟨same, sameItem⟩ := List.append_inj' split rfl
      cases List.singleton_inj.1 sameItem
      exact .inr ⟨shorter, List.concat_eq_append, same⟩
  · rintro (⟨rfl, rfl, rfl⟩ | ⟨shorter, rfl, rfl⟩)
    · rfl
    · simp

end DecisionDiagram
