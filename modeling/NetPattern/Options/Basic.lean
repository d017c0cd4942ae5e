/-!
# Options

What a caller may choose about a pattern.
-/

namespace NetPattern

/-- How the pattern of a CIDR block is written and matched. -/
structure Options where
  /-- Only whole texts match. -/
  anchored : Bool := true
  /-- IPv4 patterns ignore case too; IPv6 patterns always do. -/
  ignoreCase : Bool := false
  /-- The flags ask for all matches. -/
  global : Bool := false
  /-- An IPv4 octet may be padded with zeros up to three digits. -/
  leadingZeros : Bool := false
deriving DecidableEq, Repr, Inhabited

end NetPattern
