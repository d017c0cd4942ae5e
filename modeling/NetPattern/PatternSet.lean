import NetPattern.Options.Basic
import NetPattern.Range
import NetPattern.Row.Decomposition
import NetPattern.Row.Merge

/-!
# Pattern sets

The rows that together match the written addresses of a range, and their reduction to fewer rows
that match the same.
-/

namespace NetPattern

/-- Rows for the addresses of one family. -/
structure PatternSet where
  family : Family
  rows : List Row
deriving DecidableEq, Repr

namespace PatternSet

/-- The rows of a range, before any is merged; the fragments of hextets are asked for. -/
def ofRangeWith {m : Type → Type} [Monad m] (ask : Nat → Nat → m Fragment) (range : Range)
    (options : Options) : m PatternSet := do
  let form := SegmentForm.of range.family options.leadingZeros
  let rows ← Row.decomposeWith (form.fragmentWith ask) form
    range.firstSegments.length range.firstSegments range.lastSegments
  pure ⟨range.family, rows⟩

/-- The rows of a range, before any is merged. -/
def ofRange (range : Range) (options : Options) : PatternSet :=
  Id.run (ofRangeWith Fragment.freshHextets range options)

theorem ofRange_eq (range : Range) (options : Options) :
    ofRange range options =
      ⟨range.family, Row.decompose (.of range.family options.leadingZeros) range.firstSegments
        range.lastSegments⟩ :=
  rfl

/-- The set with rows merged that differ at one position only. -/
def collapse (set : PatternSet) : PatternSet where
  family := set.family
  rows := Row.collapse set.rows

/-- All rows as the alternatives of one group. -/
def alternation (set : PatternSet) : Fragment :=
  Fragment.group (set.rows.map (Row.render set.family))

/-- A range with its rows before and after they are merged, if the bounds make a range; the
fragments of hextets are asked for. -/
def stagesWith? {m : Type → Type} [Monad m] (ask : Nat → Nat → m Fragment) (family : Family)
    (first last : Nat) (options : Options) : m (Option (Range × PatternSet × PatternSet)) :=
  match Range.make? family first last with
  | some range => do
      let rows ← ofRangeWith ask range options
      return some (range, rows, rows.collapse)
  | none => return none

/-- A range with its rows before and after they are merged, if the bounds make a range. -/
def stages? (family : Family) (first last : Nat) (options : Options) :
    Option (Range × PatternSet × PatternSet) :=
  Id.run (stagesWith? Fragment.freshHextets family first last options)

end PatternSet

end NetPattern
