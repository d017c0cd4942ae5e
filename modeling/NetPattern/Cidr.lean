import NetPattern.Address.Written
import NetPattern.Range
import NetPattern.Text.Blank

/-!
# CIDR blocks

An address with a prefix length, as in `10.1.2.3/8`. The address keeps its host bits; the range
of the block clears them at its lower end and sets them at its upper end. A block may hold any
two numbers: bits above the width of the family and a prefix length above it have no effect on
the range.
-/

namespace NetPattern

/-- An address of a family with a prefix length. -/
structure Cidr where
  family : Family
  address : Nat
  prefixLength : Nat
deriving DecidableEq, Repr

namespace Cidr

/-- The block of an address, unless the prefix length exceeds the width of the family. -/
def make (family : Family) (address prefixLength : Nat) : Except CidrError Cidr :=
  if prefixLength ≤ family.bits then .ok ⟨family, address, prefixLength⟩
  else .error (.prefixOutOfRange (toString prefixLength) family.bits)

/-- The number of bits that the prefix leaves free. -/
def hostBits (cidr : Cidr) : Nat :=
  cidr.family.bits - cidr.prefixLength

theorem hostBits_le (cidr : Cidr) : cidr.hostBits ≤ cidr.family.bits :=
  Nat.sub_le _ _

/-- The number of addresses in the block. -/
def blockSize (cidr : Cidr) : Nat :=
  1 <<< cidr.hostBits

theorem blockSize_pos (cidr : Cidr) : 0 < cidr.blockSize := by
  rw [blockSize, Nat.one_shiftLeft]
  exact Nat.two_pow_pos _

/-- The blocks of one size divide the addresses of a family. -/
theorem blockSize_dvd (cidr : Cidr) : cidr.blockSize ∣ cidr.family.size := by
  rw [blockSize, Family.size, Nat.one_shiftLeft, Nat.one_shiftLeft]
  exact Nat.pow_dvd_pow 2 cidr.hostBits_le

/-- The lowest address of the block. -/
def firstAddress (cidr : Cidr) : Nat :=
  cidr.address % cidr.family.size / cidr.blockSize * cidr.blockSize

/-- A block ends within the width of its family. -/
theorem firstAddress_add_le (cidr : Cidr) :
    cidr.firstAddress + cidr.blockSize ≤ cidr.family.size := by
  obtain ⟨blocks, hblocks⟩ := cidr.blockSize_dvd
  have hsize : 0 < cidr.family.size := by
    rw [Family.size, Nat.one_shiftLeft]
    exact Nat.two_pow_pos _
  have hquot : cidr.address % cidr.family.size / cidr.blockSize < blocks :=
    Nat.div_lt_of_lt_mul (hblocks ▸ Nat.mod_lt _ hsize)
  calc cidr.firstAddress + cidr.blockSize
      = (cidr.address % cidr.family.size / cidr.blockSize + 1) * cidr.blockSize := by
        rw [firstAddress, Nat.succ_mul]
    _ ≤ blocks * cidr.blockSize := Nat.mul_le_mul_right _ hquot
    _ = cidr.family.size := by rw [hblocks, Nat.mul_comm]

/-- All addresses that agree with the block on the bits of its prefix. -/
def range (cidr : Cidr) : Range where
  family := cidr.family
  first := cidr.firstAddress
  last := cidr.firstAddress + (cidr.blockSize - 1)
  first_le_last := Nat.le_add_right _ _
  last_lt := by
    have hpos := cidr.blockSize_pos
    have hle := cidr.firstAddress_add_le
    omega

/-- The same block with its host bits cleared. -/
def network (cidr : Cidr) : Cidr :=
  { cidr with address := cidr.range.first }

/-- Whether the prefix covers the whole address. -/
def isHost (cidr : Cidr) : Bool :=
  cidr.prefixLength == cidr.family.bits

/-- The standard text of the address alone. -/
def addressText (cidr : Cidr) : String :=
  String.ofList (cidr.family.writeAddress cidr.address)

/-- The address, a slash, and the prefix length in decimal. -/
def write (cidr : Cidr) : List Char :=
  cidr.family.writeAddress cidr.address ++ '/' :: Numeral.decimal cidr.prefixLength

/-- The standard text of a block. -/
def display (cidr : Cidr) : String :=
  String.ofList cidr.write

/-- The family of a written address: only IPv6 has colons. -/
def familyOf (address : List Char) : Family :=
  if ':' ∈ address then .v6 else .v4

/-- The block that a text without surrounding blanks denotes. -/
def read (text : List Char) : Except CidrError Cidr :=
  match text.splitOn '/' with
  | [address, written] =>
      match Numeral.decimal? written with
      | some prefixLength =>
          if address = [] then .error (.malformed (String.ofList text))
          else if prefixLength ≤ (familyOf address).bits then do
            let number ← (familyOf address).parseAddress (String.ofList address)
            return ⟨familyOf address, number, prefixLength⟩
          else .error (.prefixOutOfRange (String.ofList written) (familyOf address).bits)
      | none => .error (.malformed (String.ofList text))
  | _ => .error (.malformed (String.ofList text))

/-- The block that a text denotes, blanks around it aside. -/
def parse (text : String) : Except CidrError Cidr :=
  read (Text.trim text.toList)

end Cidr

/-- A block whose address and prefix length both fit the width of its family. -/
structure Net extends Cidr where
  address_lt : address < family.size
  prefixLength_le : prefixLength ≤ family.bits

/-- The block of two numbers, unless one of them does not fit the family. -/
def Net.make? (family : Family) (address prefixLength : Nat) : Option Net :=
  if h : address < family.size ∧ prefixLength ≤ family.bits then
    some ⟨⟨family, address, prefixLength⟩, h.1, h.2⟩
  else none

end NetPattern
