/-!
# Address families

An address of either family is a number of a fixed width, written as a row of segments of equal
width: four octets for IPv4, eight hextets for IPv6.
-/

namespace NetPattern

/-- The two families of internet addresses. -/
inductive Family
  | v4
  | v6
deriving DecidableEq, Repr

namespace Family

/-- The width of a segment in bits. -/
def segmentBits : Family → Nat
  | v4 => 8
  | v6 => 16

/-- The number of segments of an address. -/
def segmentCount : Family → Nat
  | v4 => 4
  | v6 => 8

/-- The width of an address in bits. -/
def bits : Family → Nat
  | v4 => 32
  | v6 => 128

/-- The number of addresses. -/
def size (family : Family) : Nat :=
  1 <<< family.bits

/-- The largest value of a segment. -/
def segmentMax : Family → Nat
  | v4 => 255
  | v6 => 65535

theorem bits_eq_mul (family : Family) :
    family.bits = family.segmentCount * family.segmentBits := by
  cases family <;> rfl

theorem segmentMax_succ (family : Family) :
    family.segmentMax + 1 = 1 <<< family.segmentBits := by
  cases family <;> rfl

end Family

end NetPattern
