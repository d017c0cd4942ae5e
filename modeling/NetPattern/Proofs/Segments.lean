import NetPattern.Proofs.Positional
import NetPattern.Proofs.Row.Decomposition

/-!
# Segments of addresses

An address and its segments are the same thing: the order of addresses is that of their segments,
and every list of segments of the right number and size belongs to an address.
-/

namespace NetPattern

namespace Family

theorem size_eq_pow (family : Family) :
    family.size = (family.segmentMax + 1) ^ family.segmentCount := by
  cases family <;> rfl

@[simp] theorem length_segments (family : Family) (address : Nat) :
    (family.segments address).length = family.segmentCount :=
  Positional.length_digits _ _ _

theorem segments_ne_nil (family : Family) (address : Nat) : family.segments address ≠ [] := by
  refine List.ne_nil_of_length_pos ?_
  rw [length_segments]
  cases family <;> decide

theorem segments_le_segmentMax (family : Family) {address segment : Nat}
    (h : segment ∈ family.segments address) : segment ≤ family.segmentMax :=
  Nat.le_of_lt_succ (Positional.digits_lt (Nat.succ_pos _) h)

/-- Addresses are in the order of their segments. -/
theorem segments_le_segments_iff {family : Family} {v w : Nat} (hv : v < family.size)
    (hw : w < family.size) : family.segments v ≤ family.segments w ↔ v ≤ w := by
  rw [size_eq_pow] at hv hw
  exact Positional.digits_le_digits_iff hv hw

/-- The address that some segments stand for, the first of them the most significant. -/
def recombine (family : Family) (segments : List Nat) : Nat :=
  Positional.value (family.segmentMax + 1) segments

theorem fits_segments (family : Family) (address : Nat) :
    Row.Fits family.segmentMax family.segmentCount (family.segments address) :=
  ⟨family.length_segments address, fun _ => family.segments_le_segmentMax⟩

theorem recombine_segments {family : Family} {address : Nat} (h : address < family.size) :
    family.recombine (family.segments address) = address := by
  rw [size_eq_pow] at h
  exact Positional.value_digits_of_lt h

section Recombine

variable {family : Family} {segments : List Nat}
  (hfits : Row.Fits family.segmentMax family.segmentCount segments)

include hfits

theorem recombine_lt : family.recombine segments < family.size := by
  rw [size_eq_pow, ← hfits.1]
  exact Positional.value_lt fun segment hsegment => Nat.lt_succ_of_le (hfits.2 segment hsegment)

theorem segments_recombine : family.segments (family.recombine segments) = segments := by
  rw [Family.segments, ← hfits.1]
  exact Positional.digits_value fun segment hsegment =>
    Nat.lt_succ_of_le (hfits.2 segment hsegment)

end Recombine

theorem exists_writesSegments (family : Family) (leadingZeros : Bool) {segments : List Nat}
    (hmax : ∀ segment ∈ segments, segment ≤ family.segmentMax) :
    ∃ text, family.WritesSegments leadingZeros segments text := by
  have hparts : ∃ parts,
      List.Forall₂ (SegmentForm.of family leadingZeros).Writes segments parts := by
    rw [segmentMax_eq_top family leadingZeros] at hmax
    induction segments with
    | nil => exact ⟨[], .nil⟩
    | cons segment segments ih =>
        obtain ⟨hsegment, hsegments⟩ := List.forall_mem_cons.mp hmax
        obtain ⟨part, hpart⟩ := (SegmentForm.of family leadingZeros).exists_writes hsegment
        obtain ⟨parts, hparts⟩ := ih hsegments
        exact ⟨part :: parts, .cons hpart hparts⟩
  obtain ⟨parts, hparts⟩ := hparts
  exact ⟨_, parts, rfl, hparts⟩

theorem exists_writes (family : Family) (leadingZeros : Bool) (address : Nat) :
    ∃ text, family.Writes leadingZeros address text :=
  family.exists_writesSegments leadingZeros fun _ => family.segments_le_segmentMax

end Family

namespace Range

/-- Whether a text is a written form of an address of a range. -/
def Written (range : Range) (leadingZeros : Bool) (text : List Char) : Prop :=
  ∃ address, range.contains address = true ∧ range.family.Writes leadingZeros address text

theorem lt_size_of_contains {range : Range} {address : Nat}
    (h : range.contains address = true) : address < range.family.size :=
  Nat.lt_of_le_of_lt ((range.contains_iff address).mp h).2 range.last_lt

/-- The segments of the bounds of a range are bounds of a range of segments. -/
theorem segmentBounds (range : Range) (leadingZeros : Bool) :
    SegmentBounds (SegmentForm.of range.family leadingZeros).top range.family.segmentCount
      range.firstSegments range.lastSegments := by
  rw [← Family.segmentMax_eq_top]
  exact {
    length_low := range.family.length_segments range.first
    length_high := range.family.length_segments range.last
    low_le_top := fun _ => range.family.segments_le_segmentMax
    high_le_top := fun _ => range.family.segments_le_segmentMax
    low_le_high :=
      (Family.segments_le_segments_iff (Nat.lt_of_le_of_lt range.first_le_last range.last_lt)
        range.last_lt).mpr range.first_le_last }

/-- The addresses of a range are those with segments between those of the bounds. -/
theorem contains_iff_segments {range : Range} {address : Nat}
    (haddress : address < range.family.size) :
    range.contains address = true ↔
      range.firstSegments ≤ range.family.segments address ∧
        range.family.segments address ≤ range.lastSegments := by
  have hfirst := Nat.lt_of_le_of_lt range.first_le_last range.last_lt
  rw [contains_iff, firstSegments, lastSegments, Family.segments_le_segments_iff hfirst haddress,
    Family.segments_le_segments_iff haddress range.last_lt]

theorem exists_written (range : Range) (leadingZeros : Bool) :
    ∃ text, range.Written leadingZeros text := by
  obtain ⟨text, hwrites⟩ := range.family.exists_writes leadingZeros range.first
  exact ⟨text, range.first, by simp [range.first_le_last], hwrites⟩

end Range

end NetPattern
