import DecisionDiagram.Node
import DecisionDiagram.Proofs.Words
import Mathlib.Data.Nat.Pairing
import Mathlib.Data.Set.Prod

/-!
# Hashing without loss

A hash loses nothing as long as the numbers that it is made of are small.  Pairing numbers the
pairs of a square along its shells, so a square whose side is half as wide as a word is numbered by
all words; only beyond it do numbers wrap around.  Mixing permutes the words, since each of its
steps can be taken back.  Hence the hashes of two nodes differ if their variables and low branches
are small enough for both pairings to stay within their squares.
-/

namespace DecisionDiagram.Hash

variable {first second third otherFirst otherSecond otherThird word : UInt64} {side : Nat}

/-! ## Pairing -/

def below (bound : Nat) : Set UInt64 :=
  {word | word.toNat < bound}

@[simp] theorem mem_below {bound : Nat} : word ∈ below bound ↔ word.toNat < bound := Iff.rfl

theorem below_size : below UInt64.size = Set.univ :=
  Set.eq_univ_of_forall UInt64.toNat_lt_size

/-- The number of a pair, unless a product or a sum on the way to it is not a word. -/
def pair? (first second : UInt64) : Option UInt64 := do
  if first < second then
    Word.sum? (← Word.product? second second) first
  else
    Word.sum? (← Word.sum? (← Word.product? first first) first) second

/-- Nothing wraps around on the way exactly if the number of the pair is a word. -/
theorem pair?_eq_some_iff :
    pair? first second = some word ↔ word.toNat = Nat.pair first.toNat second.toNat := by
  simp only [pair?, Nat.pair, UInt64.lt_iff_toNat_lt, Option.bind_eq_bind]
  split <;>
    simp only [Option.bind_eq_some_iff, Word.product?_eq_some_iff, Word.sum?_eq_some_iff,
      Nat.add_assoc, Word.exists_summand_iff]

theorem toNat_pair (first second : UInt64) :
    (pair first second).toNat = Nat.pair first.toNat second.toNat % UInt64.size := by
  simp only [pair, Nat.pair, UInt64.lt_iff_toNat_lt]
  split <;> simp [UInt64.size]

/-- The pairs of a square are those with numbers below its area. -/
theorem pair_lt_sq_iff {first second : Nat} :
    Nat.pair first second < side ^ 2 ↔ first < side ∧ second < side := by
  constructor
  · intro within
    have shell : max first second ^ 2 ≤ Nat.pair first second :=
      Nat.le_trans (Nat.le_add_right _ _) (Nat.max_sq_add_min_le_pair first second)
    have largest : max first second < side :=
      (Nat.pow_lt_pow_iff_left (by decide)).1 (Nat.lt_of_le_of_lt shell within)
    exact Nat.max_lt.1 largest
  · intro within
    have largest : max first second + 1 ≤ side := Nat.max_lt.2 within
    exact Nat.lt_of_lt_of_le (Nat.pair_lt_max_add_one_sq first second)
      (Nat.pow_le_pow_left largest 2)

theorem toNat_pair_of_mem (fits : side ^ 2 ≤ UInt64.size) (firstIn : first ∈ below side)
    (secondIn : second ∈ below side) :
    (pair first second).toNat = Nat.pair first.toNat second.toNat := by
  rw [toNat_pair]
  exact Nat.mod_eq_of_lt (Nat.lt_of_lt_of_le (pair_lt_sq_iff.2 ⟨firstIn, secondIn⟩) fits)

theorem pair_mem (fits : side ^ 2 ≤ UInt64.size) (firstIn : first ∈ below side)
    (secondIn : second ∈ below side) : pair first second ∈ below (side ^ 2) := by
  rw [mem_below, toNat_pair_of_mem fits firstIn secondIn]
  exact pair_lt_sq_iff.2 ⟨firstIn, secondIn⟩

theorem eq_of_pair_eq (fits : side ^ 2 ≤ UInt64.size) (firstIn : first ∈ below side)
    (secondIn : second ∈ below side) (otherFirstIn : otherFirst ∈ below side)
    (otherSecondIn : otherSecond ∈ below side)
    (same : pair first second = pair otherFirst otherSecond) :
    first = otherFirst ∧ second = otherSecond := by
  have numbers :
      Nat.pair first.toNat second.toNat = Nat.pair otherFirst.toNat otherSecond.toNat := by
    rw [← toNat_pair_of_mem fits firstIn secondIn,
      ← toNat_pair_of_mem fits otherFirstIn otherSecondIn, same]
  obtain ⟨firsts, seconds⟩ := Nat.pair_eq_pair.1 numbers
  exact ⟨UInt64.toNat_inj.1 firsts, UInt64.toNat_inj.1 seconds⟩

theorem exists_pair_eq (fits : side ^ 2 ≤ UInt64.size) (within : word ∈ below (side ^ 2)) :
    ∃ first ∈ below side, ∃ second ∈ below side, pair first second = word := by
  obtain ⟨left, right⟩ : word.toNat.unpair.1 < side ∧ word.toNat.unpair.2 < side := by
    rwa [← pair_lt_sq_iff, Nat.pair_unpair]
  have side_le : side ≤ UInt64.size := Nat.le_trans (Nat.le_self_pow (by decide) side) fits
  obtain ⟨first, sameFirst⟩ := Word.exists_of_lt (Nat.lt_of_lt_of_le left side_le)
  obtain ⟨second, sameSecond⟩ := Word.exists_of_lt (Nat.lt_of_lt_of_le right side_le)
  have firstIn : first ∈ below side := by rwa [mem_below, sameFirst]
  have secondIn : second ∈ below side := by rwa [mem_below, sameSecond]
  refine ⟨first, firstIn, second, secondIn, UInt64.toNat_inj.1 ?_⟩
  rw [toNat_pair_of_mem fits firstIn secondIn, sameFirst, sameSecond, Nat.pair_unpair]

/-- A square of which all numbers are words is numbered by the words below its area. -/
theorem bijOn_pair (fits : side ^ 2 ≤ UInt64.size) :
    Set.BijOn (Function.uncurry pair) (below side ×ˢ below side) (below (side ^ 2)) := by
  refine ⟨?within, ?distinct, ?onto⟩
  case within =>
    intro _ members
    exact pair_mem fits members.1 members.2
  case distinct =>
    intro _ members _ otherMembers same
    exact Prod.ext_iff.2
      (eq_of_pair_eq fits members.1 members.2 otherMembers.1 otherMembers.2 same)
  case onto =>
    intro word within
    obtain ⟨first, firstIn, second, secondIn, number⟩ := exists_pair_eq fits within
    exact ⟨(first, second), ⟨firstIn, secondIn⟩, number⟩

/-- The pairs of halves of a word are numbered by the words: each word is the number of exactly one
such pair, and nothing wraps around on the way to it. -/
theorem words_of_halves :
    (∀ first ∈ below (2 ^ 32), ∀ second ∈ below (2 ^ 32),
      pair? first second = some (pair first second) ∧
        (pair first second).toNat = Nat.pair first.toNat second.toNat) ∧
    Set.BijOn (Function.uncurry pair) (below (2 ^ 32) ×ˢ below (2 ^ 32)) Set.univ := by
  have area : (2 ^ 32) ^ 2 = UInt64.size := by decide
  constructor
  · intro first firstIn second secondIn
    have number := toNat_pair_of_mem (Nat.le_of_eq area) firstIn secondIn
    exact ⟨pair?_eq_some_iff.2 number, number⟩
  · rw [← below_size, ← area]
    exact bijOn_pair (Nat.le_of_eq area)

/-- The last word is the number of the largest two halves, and two halves have another number when
they change places. -/
theorem words_of_largest_halves :
    let largest : UInt64 := 4294967295
    let next : UInt64 := 4294967294
    (largest ∈ below (2 ^ 32) ∧ next ∈ below (2 ^ 32)) ∧
    (pair? largest largest = some (pair largest largest) ∧
      (pair largest largest).toNat = 2 ^ 64 - 1) ∧
    pair largest next ≠ pair next largest := by
  intro largest next
  have largestIn : largest ∈ below (2 ^ 32) := mem_below.2 (by decide)
  have nextIn : next ∈ below (2 ^ 32) := mem_below.2 (by decide)
  obtain ⟨numbered, number⟩ := words_of_halves.1 largest largestIn largest largestIn
  refine ⟨⟨largestIn, nextIn⟩, ⟨numbered, number.trans (by decide)⟩, fun same => ?_⟩
  have swapped : (largest, next) = (next, largest) :=
    words_of_halves.2.injOn ⟨largestIn, nextIn⟩ ⟨nextIn, largestIn⟩ same
  exact absurd swapped (by decide)

/-! ## Mixing -/

/-- Folding a word that is folded brings back its lower half, since two shifts take away all bits
that there are. -/
theorem involutive_fold : Function.Involutive fold := by
  intro word
  have gone : word >>> 33 >>> 33 = 0 := by
    have bound := word.toNat_lt
    rw [← UInt64.toNat_inj]
    simp only [UInt64.toNat_shiftRight, UInt64.reduceToNat, Nat.reduceMod,
      Nat.shiftRight_eq_div_pow]
    omega
  simp only [fold, UInt64.shiftRight_xor, gone, UInt64.xor_zero, UInt64.xor_assoc, UInt64.xor_self]

/-- What is multiplied by a factor with an inverse can be recovered. -/
theorem bijective_mul {factor : UInt64} (inverse : UInt64) (unit : factor * inverse = 1) :
    Function.Bijective (· * factor) := by
  refine Function.bijective_iff_has_inverse.2 ⟨(· * inverse), fun word => ?_, fun word => ?_⟩
  · simp only [UInt64.mul_assoc, unit, UInt64.mul_one]
  · simp only [UInt64.mul_assoc, UInt64.mul_comm inverse, unit, UInt64.mul_one]

/-- The factors are odd, so each has an inverse modulo `2 ^ 64`. -/
theorem bijective_mix : Function.Bijective mix := by
  have folding : Function.Bijective fold := involutive_fold.bijective
  have early : Function.Bijective (· * (0xff51afd7ed558ccd : UInt64)) :=
    bijective_mul 0x4f74430c22a54005 (by decide)
  have late : Function.Bijective (· * (0xc4ceb9fe1a85ec53 : UInt64)) :=
    bijective_mul 0x9cb4b2f8129337db (by decide)
  exact folding.comp (late.comp (folding.comp (early.comp folding)))

/-! ## Triples and nodes -/

/-- Triples are told apart if their first two members are from a square, the third one is below its
area, and the numbers of the square over that area are words. -/
theorem eq_of_triple_eq (fits : (side ^ 2) ^ 2 ≤ UInt64.size) (firstIn : first ∈ below side)
    (secondIn : second ∈ below side) (thirdIn : third ∈ below (side ^ 2))
    (otherFirstIn : otherFirst ∈ below side) (otherSecondIn : otherSecond ∈ below side)
    (otherThirdIn : otherThird ∈ below (side ^ 2))
    (same : triple first second third = triple otherFirst otherSecond otherThird) :
    first = otherFirst ∧ second = otherSecond ∧ third = otherThird := by
  have innerFits : side ^ 2 ≤ UInt64.size := Nat.le_trans (Nat.le_self_pow (by decide) _) fits
  have unmixed : pair3 first second third = pair3 otherFirst otherSecond otherThird :=
    bijective_mix.injective same
  obtain ⟨pairs, thirds⟩ := eq_of_pair_eq fits (pair_mem innerFits firstIn secondIn) thirdIn
    (pair_mem innerFits otherFirstIn otherSecondIn) otherThirdIn unmixed
  obtain ⟨firsts, seconds⟩ :=
    eq_of_pair_eq innerFits firstIn secondIn otherFirstIn otherSecondIn pairs
  exact ⟨firsts, seconds, thirds⟩

end DecisionDiagram.Hash

namespace DecisionDiagram.Node

variable {left right : Node}

/-- The variable and the low branch have at most 16 bits. -/
def Narrow (node : Node) : Prop :=
  node.var.toNat < 2 ^ 16 ∧ node.low.id.toNat < 2 ^ 16

instance (node : Node) : Decidable node.Narrow :=
  inferInstanceAs (Decidable (_ ∧ _))

theorem eq_of_hash_eq (leftNarrow : left.Narrow) (rightNarrow : right.Narrow)
    (same : left.hash = right.hash) : left = right := by
  have fits : ((2 ^ 16) ^ 2) ^ 2 ≤ UInt64.size := by decide
  have everyIn : ∀ ref : Ref, ref.id.toUInt64 ∈ Hash.below ((2 ^ 16) ^ 2) := by
    intro ref
    have bound := ref.id.toNat_lt
    rw [Hash.mem_below, UInt32.toNat_toUInt64]
    omega
  obtain ⟨vars, lows, highs⟩ := Hash.eq_of_triple_eq fits leftNarrow.1 leftNarrow.2
    (everyIn left.high) rightNarrow.1 rightNarrow.2 (everyIn right.high) same
  obtain ⟨var, ⟨low⟩, ⟨high⟩⟩ := left
  obtain ⟨otherVar, ⟨otherLow⟩, ⟨otherHigh⟩⟩ := right
  obtain rfl : var = otherVar := UInt32.toUInt64_inj.1 vars
  obtain rfl : low = otherLow := UInt32.toUInt64_inj.1 lows
  obtain rfl : high = otherHigh := UInt32.toUInt64_inj.1 highs
  rfl

/-- Mixing permutes the words, so it merges no two of them; and nodes whose variables and low
branches have at most 16 bits have the same hash only if they are the same, whatever their high
branches are.  With 16 bits, the numbers of the inner pairs are just below `2 ^ 32`, as is every
high branch, so the numbers of the outer pairs are words. -/
theorem separated_of_narrow :
    Function.Bijective Hash.mix ∧
    ∀ left right : Node, left.Narrow → right.Narrow → (left.hash = right.hash ↔ left = right) :=
  ⟨Hash.bijective_mix, fun _ _ leftNarrow rightNarrow =>
    ⟨eq_of_hash_eq leftNarrow rightNarrow, congrArg hash⟩⟩

/-- The narrow node with the largest numbers, and its neighbour. -/
theorem separated_of_largest :
    let largest : Node := ⟨65535, ⟨65535⟩, ⟨4294967295⟩⟩
    let next : Node := ⟨65535, ⟨65534⟩, ⟨4294967295⟩⟩
    (largest.Narrow ∧ next.Narrow) ∧ largest.hash ≠ next.hash := by
  intro largest next
  have largestNarrow : largest.Narrow := by decide
  have nextNarrow : next.Narrow := by decide
  refine ⟨⟨largestNarrow, nextNarrow⟩, fun same => ?_⟩
  have merged := (separated_of_narrow.2 largest next largestNarrow nextNarrow).1 same
  exact absurd merged (by decide)

end DecisionDiagram.Node
