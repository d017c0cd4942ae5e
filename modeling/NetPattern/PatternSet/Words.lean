import NetPattern.Fragment.Words
import NetPattern.Masks
import NetPattern.PatternSet
import NetPattern.Row.Grouping

/-!
# Pattern sets in words

The rows of a range whose bounds are words of 128 bits, built from segments of 16 bits. What each
step asks of the bounds that it is given is checked, and so is each step that could leave a word. A
result shows that no check failed.
-/

namespace NetPattern

namespace SegmentForm

/-- The largest segment. -/
def topWord (form : SegmentForm) : BitVec 16 :=
  BitVec.ofNat 16 form.top

/-- The fragment of the segments from `low` to `high`, which have to be segments in order. -/
def fragment? : SegmentForm → (low high : BitVec 16) → Option Fragment
  | octet padded => Fragment.octetRange? padded
  | hextet => Fragment.hextetRange?

end SegmentForm

namespace Row

/-- The row of the segments between two others with any `width` segments behind, if there are
segments between them. -/
def middleRow? (form : SegmentForm) (width : Nat) (l h : BitVec 16) : Option (List Row) := do
  let next ← sum? l 1
  if next < h then
    let last ← difference? h 1
    return [(← form.fragment? next last) :: anything form width]
  else return []

/-- The rows for the lists of segments between two of them. -/
def decompose? (form : SegmentForm) (low high : List (BitVec 16)) : Option (List Row) :=
  if ¬ WordBounds low high then none
  else match low, high with
  | l :: low, h :: high =>
      if (l :: low).all (· = 0) ∧ (h :: high).all (· = form.topWord) then
        some [anything form (low.length + 1)]
      else if l = h then do
        let only ← form.fragment? l l
        let rows ← decompose? form low high
        return rows.map (only :: ·)
      else do
        let lowest ← form.fragment? l l
        let below ← decompose? form low (List.replicate low.length form.topWord)
        let middle ← middleRow? form low.length l h
        let highest ← form.fragment? h h
        let above ← decompose? form (List.replicate low.length 0) high
        return (below.map (lowest :: ·) ++ middle ++ above.map (highest :: ·)).eraseDups
  | _, _ => some [[]]
termination_by low.length

end Row

namespace PatternSet

/-- The rows of the range between two addresses, before any is merged. -/
def ofWords? (family : Family) (first last : Word) (options : Options) : Option PatternSet := do
  let low ← Word.segments? family first
  let high ← Word.segments? family last
  let rows ← Row.decompose? (.of family options.leadingZeros) low high
  return ⟨family, rows⟩

/-- The set with rows merged by an index that differ at one position only. -/
def collapseByIndex? (set : PatternSet) : Option PatternSet := do
  return ⟨set.family, ← Row.collapseByIndex? set.rows⟩

end PatternSet

end NetPattern
