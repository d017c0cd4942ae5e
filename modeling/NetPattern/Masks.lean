import NetPattern.Address.Family

/-!
# Bounds and segments by masks

The bounds of a block, the number of its addresses and the segments of an address in words of 128
bits, by shifts and masks. A word has no room for the number of all IPv6 addresses, and cannot be
shifted by its whole width. So each step that could leave the word is checked, and a result shows
that none did.
-/

namespace NetPattern

/-- A number of 128 bits. -/
abbrev Word := BitVec 128

namespace Word

/-- A word moved to the left, unless by its whole width or more. -/
def shiftLeft? (word : Word) (count : Nat) : Option Word :=
  if count < 128 then some (word <<< count) else none

/-- A word moved to the right, unless by its whole width or more. -/
def shiftRight? (word : Word) (count : Nat) : Option Word :=
  if count < 128 then some (word >>> count) else none

/-- The sum of two words, unless a word has no room for it. -/
def add? (first second : Word) : Option Word :=
  if first.uaddOverflow second then none else some (first + second)

/-- The difference of two words, unless it is negative. -/
def sub? (first second : Word) : Option Word :=
  if second ≤ first then some (first - second) else none

/-- The word of the low bits that a prefix leaves free among `bits` bits, of which there are none
where the prefix is longer than that. -/
def hostMask? (bits prefixLength : Nat) : Option Word :=
  if 128 ≤ bits - prefixLength then some (BitVec.allOnes 128)
  else do sub? (← shiftLeft? 1 (bits - prefixLength)) 1

/-- The lowest and the highest address of a block. -/
def bounds? (family : Family) (address : Word) (prefixLength : Nat) : Option (Word × Word) := do
  let host ← hostMask? family.bits prefixLength
  let width ← hostMask? family.bits 0
  let first := address &&& ~~~host &&& width
  return (first, first ||| host)

/-- The number of addresses between two bounds, or the largest word where there is one more. -/
def size? (first last : Word) : Option Word := do
  let others ← sub? last first
  if others = BitVec.allOnes 128 then return others else add? others 1

/-- The segments of an address in 16 bits each, the most significant first: each is moved to the low
end of the word and masked out of it. -/
def segments? (family : Family) (address : Word) : Option (List (BitVec 16)) :=
  (List.range family.segmentCount).reverse.mapM fun place => do
    let moved ← shiftRight? address (place * family.segmentBits)
    return (moved &&& BitVec.ofNat 128 family.segmentMax).setWidth 16

end Word

end NetPattern
