/-!
# Causes of failure

Every way in which a text fails to be a CIDR block or an address, and the wording of each. The
last cause belongs to the pattern stage and not to reading.
-/

namespace NetPattern

/-- What is wrong with the text of an address. -/
inductive AddressFault
  | octetCount
  | octetValue
  | repeatedCompression
  | emptyGroup
  | tooManyGroups
  | groupCount
  | groupDigits
  | embeddedQuad
  /-- A reason that a caller states in words of its own. -/
  | stated (reason : String)
deriving DecidableEq, Repr

/-- The wording of an address fault. -/
def AddressFault.message : AddressFault → String
  | octetCount => "IPv4 address needs exactly 4 octets"
  | octetValue => "IPv4 octet must be a decimal number <= 255"
  | repeatedCompression => "more than one '::' in IPv6 address"
  | emptyGroup => "empty group in IPv6 address"
  | tooManyGroups => "too many groups in compressed IPv6 address"
  | groupCount => "IPv6 address needs exactly 8 groups"
  | groupDigits => "IPv6 group must be 1-4 hex digits"
  | embeddedQuad => "invalid embedded IPv4 in IPv6 address"
  | stated reason => reason

/-- Why no pattern could be made. -/
inductive CidrError
  /-- The text is not of the form address, slash, decimal digits. -/
  | malformed (text : String)
  /-- The written prefix length exceeds the width of the family. -/
  | prefixOutOfRange (written : String) (max : Nat)
  /-- The text before the slash is no address of its family. -/
  | invalidAddress (address : String) (fault : AddressFault)
  /-- The assembled pattern is not a regular expression. -/
  | regexRefused (reason : String)
deriving DecidableEq, Repr

/-- The wording of a failure. -/
def CidrError.message : CidrError → String
  | malformed text => "malformed CIDR (expected '<address>/<prefix>'): '" ++ text ++ "'"
  | prefixOutOfRange written max =>
      "prefix length out of range: '" ++ written ++ "' (max " ++ toString max ++ ")"
  | invalidAddress address fault =>
      "invalid IP address '" ++ address ++ "': " ++ fault.message
  | regexRefused reason => "failed to build regex: " ++ reason

end NetPattern
