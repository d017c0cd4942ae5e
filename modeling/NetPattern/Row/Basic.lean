import NetPattern.Address.Family
import NetPattern.Fragment.Basic

/-!
# Rows

A row has a fragment for each segment of an address and matches the addresses whose segments its
fragments match one by one.
-/

namespace NetPattern

/-- One fragment for each segment, the most significant first. -/
abbrev Row := List Fragment

/-- What stands between the segments of an address, as a pattern. -/
def Family.separator : Family → Fragment
  | .v4 => "\\.".toList
  | .v6 => ":".toList

namespace Row

/-- The pattern of a whole row. -/
def render (family : Family) (row : Row) : Fragment :=
  family.separator.intercalate row

/-- The fragment at a position, empty behind the end of the row. -/
def fragmentAt (row : Row) (position : Nat) : Fragment :=
  row[position]?.getD []

/-- What a row has at every other position. -/
def blankAt (row : Row) (position : Nat) : Row :=
  row.set position []

end Row

end NetPattern
