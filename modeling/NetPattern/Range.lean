import NetPattern.Address.Family
import NetPattern.Positional

/-!
# Ranges of addresses

An inclusive range of addresses of one family. Its bounds are in order and within the width of
the family by construction. As lists of segments the bounds are compared from the most
significant end.
-/

namespace NetPattern

/-- The segments of an address, the most significant first. -/
def Family.segments (family : Family) (address : Nat) : List Nat :=
  Positional.digits (family.segmentMax + 1) family.segmentCount address

/-- The addresses of a family from `first` to `last`, both included. -/
structure Range where
  family : Family
  first : Nat
  last : Nat
  first_le_last : first ≤ last
  last_lt : last < family.size
deriving DecidableEq, Repr

namespace Range

/-- The range between two bounds, unless they are out of order or too wide for the family. -/
def make? (family : Family) (first last : Nat) : Option Range :=
  if h : first ≤ last ∧ last < family.size then some ⟨family, first, last, h.1, h.2⟩
  else none

/-- Whether an address lies in the range. -/
def contains (range : Range) (address : Nat) : Bool :=
  range.first ≤ address && address ≤ range.last

/-- The largest size that a range reports. -/
def maxSize : Nat := (1 <<< 128) - 1

/-- The number of addresses in the range, or `maxSize` where there are more. -/
def size (range : Range) : Nat :=
  min (range.last - range.first + 1) maxSize

/-- The segments of the lower bound. -/
def firstSegments (range : Range) : List Nat :=
  range.family.segments range.first

/-- The segments of the upper bound. -/
def lastSegments (range : Range) : List Nat :=
  range.family.segments range.last

@[simp] theorem contains_iff (range : Range) (address : Nat) :
    range.contains address = true ↔ range.first ≤ address ∧ address ≤ range.last := by
  simp [contains]

end Range

end NetPattern
