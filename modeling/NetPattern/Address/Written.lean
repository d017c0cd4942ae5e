import NetPattern.Address.ColonGroups
import NetPattern.Address.Family

/-!
# Written addresses

Reading and writing an address of either family. A text that is no address is refused with the
whole of it in the error.
-/

namespace NetPattern.Family

/-- The address that a text denotes in a family. -/
def readAddress : Family → List Char → Except AddressFault Nat
  | v4 => DottedQuad.read
  | v6 => ColonGroups.read

/-- The standard text of an address; bits above the width of the family are left out. -/
def writeAddress : Family → Nat → List Char
  | v4 => DottedQuad.write
  | v6 => ColonGroups.write

/-- Reads an address, naming the text in the error. -/
def parseAddress (family : Family) (text : String) : Except CidrError Nat :=
  (family.readAddress text.toList).mapError (.invalidAddress text)

end NetPattern.Family
