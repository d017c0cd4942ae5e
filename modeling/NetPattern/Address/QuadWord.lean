import NetPattern.Address.DottedQuad

/-!
# Dotted quads in words

A dotted quad read into words. An octet is read digit by digit into 8 bits. These have no room for
most decimal numerals, so each product and each sum is checked. The octets are shifted one by one
into 32 bits, which keep what was there as long as there is room for it.
-/

namespace NetPattern.DottedQuad

/-- An octet with one more decimal digit, unless 8 bits have no room for it. -/
def pushDigit? (octet : BitVec 8) (c : Char) : Option (BitVec 8) :=
  let digit := BitVec.ofNat 8 (c.toNat - '0'.toNat)
  if octet.umulOverflow 10 ∨ (octet * 10).uaddOverflow digit then none
  else some (octet * 10 + digit)

/-- The octet of a nonempty text of decimal digits. -/
def octetWord? (part : List Char) : Option (BitVec 8) :=
  if part ≠ [] ∧ part.all Char.isDigit then part.foldlM pushDigit? 0 else none

/-- A word moved up by an octet, which takes the place that becomes free. -/
def pushOctet (word : BitVec 32) (octet : BitVec 8) : BitVec 32 :=
  word <<< 8 ||| octet.setWidth 32

/-- The word with the octet that a part denotes, or what is wrong with the part. -/
def pushPart (word : BitVec 32) (part : List Char) : Except AddressFault (BitVec 32) :=
  match octetWord? part with
  | some octet => .ok (pushOctet word octet)
  | none => .error .octetValue

/-- The address that a dotted quad denotes, read part by part into a word. -/
def readWord (text : List Char) : Except AddressFault (BitVec 32) :=
  let parts := text.splitOn '.'
  if parts.length = 4 then parts.foldlM pushPart 0 else .error .octetCount

end NetPattern.DottedQuad
