import NetPattern.Row.Merge

/-!
# Merging rows in one sweep

The rows to merge at a position are found in one sweep over all rows. An index tells for what a row
has at every other position where its group is, if there is one already, and a group keeps its first
row and the distinct fragments at the position. Each step that could reach behind the end of a row
or of the groups is checked, and a result shows that none did. Collapsing merges in this way until
nothing is left to merge.
-/

namespace NetPattern.Row

/-- A row with another fragment at a position, unless the row ends before it. -/
def withFragment? (row : Row) (position : Nat) (fragment : Fragment) : Option Row :=
  if position < row.length then some (row.set position fragment) else none

/-- Rows that agree everywhere but at one position: the first of them, and the distinct fragments
that they have there. -/
structure Group where
  first : Row
  fragments : List Fragment

namespace Group

/-- A fragment joins those of a group, unless it is one of them already. -/
def insert (group : Group) (fragment : Fragment) : Group :=
  if group.fragments.contains fragment then group
  else { group with fragments := group.fragments ++ [fragment] }

/-- The row for a group: its first row where there is one fragment only, and otherwise the first row
with the union of all of them. -/
def merged? (position : Nat) (group : Group) : Option Row :=
  match group.fragments with
  | [_] => some group.first
  | several => withFragment? group.first position (Fragment.union several)

end Group

/-- The groups of the rows swept so far, and where to find the group of a row by what it has at
every other position. -/
structure Grouping where
  index : List (Row × Nat)
  groups : List Group

namespace Grouping

/-- The grouping of no rows. -/
def empty : Grouping :=
  ⟨[], []⟩

/-- One more row is swept: its fragment joins the group that the index gives, and where the index
gives none, the row starts a new group behind the others. -/
def add? (position : Nat) (grouping : Grouping) (row : Row) : Option Grouping := do
  let key ← withFragment? row position []
  let fragment ← row[position]?
  match grouping.index.lookup key with
  | some place =>
      let group ← grouping.groups[place]?
      return { grouping with groups := grouping.groups.set place (group.insert fragment) }
  | none =>
      return {
        index := (key, grouping.groups.length) :: grouping.index
        groups := grouping.groups ++ [⟨row, [fragment]⟩] }

end Grouping

/-- The rows merged at one position by an index, and whether some group has more than one
fragment. -/
def mergeByIndex? (position : Nat) (rows : List Row) : Option (List Row × Bool) := do
  let grouping ← rows.foldlM (Grouping.add? position) .empty
  let merged ← grouping.groups.mapM (Group.merged? position)
  return (merged, grouping.groups.any fun group => group.fragments.length != 1)

/-- The rows merged by an index at each of the first `width` positions in turn, and whether any
were. -/
def mergePassByIndex? (width : Nat) (rows : List Row) : Option (List Row × Bool) :=
  (List.range width).foldlM
    (fun (rows, merged) position => do
      let (next, here) ← mergeByIndex? position rows
      return (next, merged || here))
    (rows, false)

/-- Merges by an index at the first `width` positions until nothing is left to merge. A pass that
merges has to leave fewer rows, or it could be followed by others without end. -/
def settleByIndex? (width : Nat) (rows : List Row) : Option (List Row) := do
  let (next, merged) ← mergePassByIndex? width rows
  if merged then
    if next.length < rows.length then settleByIndex? width next else none
  else return next
termination_by rows.length

/-- The distinct rows of a list, merged by an index as far as the positions of its first row
allow. -/
def collapseByIndex? (rows : List Row) : Option (List Row) :=
  settleByIndex? (rows.head?.elim 0 List.length) rows.eraseDups

end NetPattern.Row
