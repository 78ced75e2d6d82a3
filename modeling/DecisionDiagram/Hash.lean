/-!
# Word hashing

Both tables of a manager place their contents by hashing a few numbers into one
64-bit word.  Two numbers are paired along the shells of a square; a third one is
paired with the result; a final mixing step spreads the low bits over the word.
All arithmetic is modulo `2 ^ 64`, so hashing is defined on every word.
-/

namespace DecisionDiagram.Hash

/-- Number a pair along the shells of a square: the pairs whose larger member is
`n` receive the numbers from `n ^ 2` on, first those with `first < second`. -/
def pair (first second : UInt64) : UInt64 :=
  if first < second then second * second + first
  else first * first + first + second

/-- Number a triple by pairing the number of its first two members with the third. -/
def pair3 (first second third : UInt64) : UInt64 :=
  pair (pair first second) third

/-- Fold the upper 31 bits of a word into its lower half. -/
def fold (word : UInt64) : UInt64 :=
  word ^^^ (word >>> 33)

/-- Spread the low bits of a word over all its bits: three foldings with a
multiplication by an odd constant between them. -/
def mix (word : UInt64) : UInt64 :=
  fold (fold (fold word * 0xff51afd7ed558ccd) * 0xc4ceb9fe1a85ec53)

def triple (first second third : UInt64) : UInt64 :=
  mix (pair3 first second third)

end DecisionDiagram.Hash
